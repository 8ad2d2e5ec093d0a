/-!
# Event categories

The store keeps a small number for the kind of an event. Tags that name no category count as
unspecified.
-/
namespace EventIngest

inductive Category where
  | unspecified
  | processStart
  | processTerminate
  | fileAccess
  | fileModify
  | fileDelete
  | networkConn
  | registryModify
  | dlpViolation
  | authentication
  deriving DecidableEq, Repr

namespace Category

def all : List Category :=
  [unspecified, processStart, processTerminate, fileAccess, fileModify, fileDelete, networkConn,
    registryModify, dlpViolation, authentication]

def code : Category → Nat
  | unspecified => 0
  | processStart => 1
  | processTerminate => 2
  | fileAccess => 3
  | fileModify => 4
  | fileDelete => 5
  | networkConn => 6
  | registryModify => 7
  | dlpViolation => 8
  | authentication => 9

def name : Category → String
  | unspecified => "unspecified"
  | processStart => "process_start"
  | processTerminate => "process_terminate"
  | fileAccess => "file_access"
  | fileModify => "file_modify"
  | fileDelete => "file_delete"
  | networkConn => "network_conn"
  | registryModify => "registry_modify"
  | dlpViolation => "dlp_violation"
  | authentication => "authentication"

/-- The tag by which events name the category: its name in capitals. -/
def tag (c : Category) : String := String.ofList (c.name.toList.map Char.toUpper)

/-- The category that a tag names; `unspecified` has no tag of its own. -/
def ofTag (tag : String) : Category :=
  (all.find? fun c => c.tag == tag).getD unspecified

def columnType : String :=
  let value (c : Category) := "'" ++ c.name ++ "' = " ++ toString c.code
  "Enum8(" ++ String.intercalate ", " (all.map value) ++ ")"

end Category

end EventIngest
