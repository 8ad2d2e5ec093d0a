import EventIngest.Proofs.JsonWritten
import Mathlib.Data.List.Nodup
/-!
# Records as they are written and read

What can be read as a record of a shape is what the shape admits: values that its fields can hold,
each field at most once, and all of them where they are required. Members that are admitted are read
back from the object that is written for them.
-/
namespace EventIngest.Json

open Utf8

def Kind.Fits : Kind → Scalar → Prop
  | .text, .text _ => True
  | .whole width, .whole n => width.holds n = true
  | _, _ => False

/-- The kind has no numbers beyond 64 bits. -/
def Kind.IsNarrow : Kind → Prop
  | .text => True
  | .whole width => -0x8000000000000000 ≤ width.least ∧ width.greatest < 0x10000000000000000

instance : DecidablePred Kind.IsNarrow
  | .text => inferInstanceAs (Decidable True)
  | .whole _ => inferInstanceAs (Decidable (_ ∧ _))

namespace Shape

/-- The fields have different names, and none has numbers beyond 64 bits. -/
structure IsPlain (shape : Shape) : Prop where
  distinct : (shape.fields.map Prod.fst).Nodup
  narrow : ∀ field ∈ shape.fields, field.2.IsNarrow

def Allows (shape : Shape) (member : String × Scalar) : Prop :=
  ∃ kind, (member.1, kind) ∈ shape.fields ∧ kind.Fits member.2

structure Collects (shape : Shape) (members : Members) : Prop where
  allowed : ∀ member ∈ members, shape.Allows member
  distinct : (members.map Prod.fst).Nodup

/-- The members are all that a record of this shape has. -/
structure Admits (shape : Shape) (members : Members) : Prop extends shape.Collects members where
  complete : shape.missing members = []

end Shape

section Lookup

variable {α : Type} {key : String} {listed : List (String × α)}

theorem mem_of_lookup {a : α} (h : listed.lookup key = some a) : (key, a) ∈ listed := by
  obtain ⟨before, after, rfl, -⟩ := List.lookup_eq_some_iff.mp h
  exact List.mem_append_right _ List.mem_cons_self

theorem lookup_eq_none : listed.lookup key = none ↔ key ∉ listed.map Prod.fst := by
  rw [List.lookup_eq_none_iff]
  constructor
  · intro h hMem
    obtain ⟨entry, hEntry, rfl⟩ := List.mem_map.mp hMem
    simpa using h entry hEntry
  · intro h entry hEntry
    rw [bne_iff_ne]
    rintro rfl
    exact h (List.mem_map_of_mem hEntry)

theorem notMem_before {before after : List String} (h : (before ++ key :: after).Nodup) :
    key ∉ before := by
  rw [List.nodup_middle, List.nodup_cons] at h
  exact fun hMem => h.1 (List.mem_append_left _ hMem)

theorem lookup_of_mem {a : α} (hDistinct : (listed.map Prod.fst).Nodup)
    (h : (key, a) ∈ listed) : listed.lookup key = some a := by
  obtain ⟨before, after, rfl⟩ := List.append_of_mem h
  refine List.lookup_eq_some_iff.mpr ⟨before, after, rfl, fun entry hEntry => ?_⟩
  rw [bne_iff_ne]
  rintro rfl
  rw [List.map_append] at hDistinct
  exact notMem_before hDistinct (List.mem_map.mpr ⟨entry, hEntry, rfl⟩)

end Lookup

namespace Shape

variable {shape : Shape} {members : Members}

theorem missing_of_names (h : members.map Prod.fst = shape.fields.map Prod.fst) :
    shape.missing members = [] := by
  rw [missing]
  split
  · rw [List.filter_eq_nil_iff]
    intro name hName
    rw [Option.isNone_iff_eq_none, lookup_eq_none, not_not, h]
    exact hName
  · rfl

theorem admits_of_names (hPlain : shape.IsPlain)
    (hNames : members.map Prod.fst = shape.fields.map Prod.fst)
    (hAllowed : ∀ member ∈ members, shape.Allows member) : shape.Admits members :=
  ⟨⟨hAllowed, hNames ▸ hPlain.distinct⟩, missing_of_names hNames⟩

end Shape

section Written

def memberText (member : String × Scalar) : List Char :=
  Literal.write member.1 ++ ':' :: member.2.write

/-- What is written of an object before its further members and after the ones already there. -/
def writtenFrom : Bool → Members → List Char
  | _, [] => ['\x7d']
  | first, member :: members =>
    (if first then [] else [',']) ++ memberText member ++ writtenFrom false members

theorem flatten_intersperse (members : Members) :
    (List.intersperse [','] (members.map memberText)).flatten ++ ['\x7d']
      = writtenFrom true members := by
  cases members with
  | nil => rfl
  | cons member members =>
    induction members generalizing member with
    | nil => simp [writtenFrom]
    | cons next members ih =>
      simpa [writtenFrom, List.append_assoc] using ih next

theorem encode_writeObject (members : Members) :
    encode (writeObject members) = openObject :: bytesOf (writtenFrom true members) := by
  rw [writeObject, encode_ofList, ← flatten_intersperse]
  rfl

theorem length_le_bytesOf (cs : List Char) : cs.length ≤ (bytesOf cs).length := by
  induction cs with
  | nil => exact le_rfl
  | cons c cs ih =>
    rw [bytesOf_cons, List.length_append, List.length_cons]
    have hChar := (encodeChar_length c).1
    omega

theorem length_le_writtenFrom (first : Bool) (members : Members) :
    members.length ≤ (writtenFrom first members).length := by
  induction members generalizing first with
  | nil => exact Nat.zero_le _
  | cons member members ih =>
    have hRest := ih false
    simp only [writtenFrom, memberText, Literal.write, List.length_append, List.length_cons]
    omega

theorem ends_writtenFrom (members : Members) (rest : List UInt8) :
    Number.Ends (bytesOf (writtenFrom false members) ++ rest) := by
  intro b more h
  cases members with
  | nil =>
    obtain ⟨rfl, -⟩ := List.cons.inj h
    decide
  | cons member members =>
    obtain ⟨rfl, -⟩ := List.cons.inj h
    decide

end Written

theorem skipBlanks_cons {b : UInt8} (h : isBlank b = false) (rest : List UInt8) :
    skipBlanks (b :: rest) = b :: rest := by
  rw [skipBlanks, List.dropWhile_cons_of_neg (by simp [h])]

theorem bytesOf_literal (s : String) (rest : List UInt8) :
    bytesOf (Literal.write s) ++ rest
      = Literal.quote
        :: (bytesOf (s.toList.flatMap Literal.writeChar) ++ Literal.quote :: rest) := by
  rw [Literal.write, bytesOf_append, bytesOf_cons, List.append_assoc, List.append_assoc]
  rfl

theorem bytesOf_toString_eq_cons (n : Int) :
    ∃ b more, bytesOf (toString n).toList = b :: more ∧
      Number.begins b = true ∧ isBlank b = false := by
  rw [Number.bytesOf_toString, Number.signedDecimal]
  split
  · exact ⟨_, _, rfl, by decide, by decide⟩
  · obtain ⟨b, ds, hDecimal, -⟩ := Number.decimal_eq_cons n.natAbs
    have hDigit := Number.isDigit_of_mem_decimal b (hDecimal ▸ List.mem_cons_self)
    refine ⟨b, ds, hDecimal, by rw [Number.begins, hDigit, Bool.true_or], ?_⟩
    simp only [Number.isDigit, decide_eq_true_eq] at hDigit
    simp only [isBlank, decide_eq_false_iff_not]
    rintro (rfl | rfl | rfl | rfl) <;> exact absurd hDigit (by decide)

theorem Kind.read_written {kind : Kind} {value : Scalar} (h : kind.Fits value)
    (hNarrow : kind.IsNarrow) {rest : List UInt8} (hRest : Number.Ends rest) :
    kind.read (bytesOf value.write ++ rest) = .ok (value, rest) := by
  match kind, value, h with
  | .text, .text s, _ =>
    rw [Scalar.write, bytesOf_literal, Kind.read, skipBlanks_cons (by decide)]
    simp only [if_true, Literal.read_written]
    rfl
  | .whole width, .whole n, h =>
    obtain ⟨hLeast, hGreatest⟩ := hNarrow
    have hHolds : width.least ≤ n ∧ n ≤ width.greatest := of_decide_eq_true h
    obtain ⟨b, more, hText, hBegins, hBlank⟩ := bytesOf_toString_eq_cons n
    have hRead := Number.read_written (show _ ≤ n by omega) (by omega) hRest
    rw [Scalar.write]
    rw [hText, List.cons_append] at hRead ⊢
    rw [Kind.read, skipBlanks_cons hBlank]
    have hFits : width.holds n = true := h
    simp only [hBegins, if_true, hRead, bind, Except.bind, hFits]
    rfl

namespace Shape

variable {shape : Shape}

theorem readMember_written (hPlain : shape.IsPlain) {key : String} {value : Scalar} (bound : Nat)
    {done : Members} (hAllowed : shape.Allows (key, value)) (hNew : key ∉ done.map Prod.fst)
    {rest : List UInt8} (hRest : Number.Ends rest) :
    shape.readMember bound done key (colon :: (bytesOf value.write ++ rest))
      = .ok (done ++ [(key, value)], rest) := by
  obtain ⟨kind, hField, hFits⟩ := hAllowed
  have hKind : shape.kind? key = some kind := lookup_of_mem hPlain.distinct hField
  have hRead := Kind.read_written hFits (hPlain.narrow _ hField) hRest
  rw [readMember, hKind, lookup_eq_none.mpr hNew, readColon, skipBlanks_cons (by decide)]
  simp only [Option.isSome_none, Bool.false_eq_true, if_false, if_true, bind, Except.bind, hRead]
  rfl

theorem bytesOf_memberText (member : String × Scalar) (rest : List UInt8) :
    bytesOf (memberText member) ++ rest
      = Literal.quote :: (bytesOf (member.1.toList.flatMap Literal.writeChar)
        ++ Literal.quote :: colon :: (bytesOf member.2.write ++ rest)) := by
  rw [memberText, bytesOf_append, bytesOf_cons, List.append_assoc, bytesOf_literal,
    List.append_assoc]
  rfl

theorem openKey_written (first : Bool) (rest : List UInt8) :
    ∃ b more, bytesOf (if first then [] else [',']) ++ Literal.quote :: rest = b :: more ∧
      isBlank b = false ∧ b ≠ closeObject ∧ openKey first (b :: more) = .ok rest := by
  cases first with
  | true => exact ⟨_, _, rfl, by decide, by decide, rfl⟩
  | false => exact ⟨_, _, rfl, by decide, by decide, rfl⟩

theorem readMembers_written (hPlain : shape.IsPlain) {fuel : Nat} {first : Bool}
    {done members : Members} (hAllowed : ∀ member ∈ members, shape.Allows member)
    (hDistinct : ((done ++ members).map Prod.fst).Nodup) (hFuel : members.length < fuel)
    (rest : List UInt8) :
    shape.readMembers fuel first done (bytesOf (writtenFrom first members) ++ rest)
      = .ok (done ++ members, rest) := by
  -- Each member read moves to `done`, whose keys the next one may not repeat.
  induction members generalizing fuel first done with
  | nil =>
    obtain _ | fuel := fuel
    · cases hFuel
    · rw [List.append_nil]
      rfl
  | cons member members ih =>
    obtain _ | fuel := fuel
    · cases hFuel
    obtain ⟨hAllowed, hOthers⟩ := List.forall_mem_cons.mp hAllowed
    have hNew : member.1 ∉ done.map Prod.fst := by
      rw [List.map_append] at hDistinct
      exact notMem_before hDistinct
    rw [List.append_cons] at hDistinct
    rw [writtenFrom, bytesOf_append, bytesOf_append, List.append_assoc, List.append_assoc,
      bytesOf_memberText]
    obtain ⟨b, more, hText, hBlank, hOpen, hKey⟩ := openKey_written first _
    rw [hText, readMembers, skipBlanks_cons hBlank]
    simp only [if_neg hOpen, hKey, bind, Except.bind, Literal.read_written,
      readMember_written hPlain _ hAllowed hNew (ends_writtenFrom members rest)]
    rw [ih hOthers hDistinct (Nat.lt_of_succ_lt_succ hFuel), List.append_assoc]
    rfl

/-- Members that a shape admits are read back from the object written for them. -/
theorem read_written (hPlain : shape.IsPlain) {members : Members} (h : shape.Admits members) :
    shape.read (encode (writeObject members)) = .ok members := by
  have hFuel : members.length < (bytesOf (writtenFrom true members)).length + 1 :=
    Nat.lt_succ_of_le ((length_le_writtenFrom true members).trans (length_le_bytesOf _))
  have hMembers : shape.readMembers ((bytesOf (writtenFrom true members)).length + 1) true []
      (bytesOf (writtenFrom true members) ++ []) = .ok ([] ++ members, []) :=
    @readMembers_written shape hPlain _ true [] members h.allowed h.distinct hFuel []
  rw [List.append_nil, List.nil_append] at hMembers
  have hObject : shape.readObject (bytesOf (writtenFrom true members)) = .ok (members, []) := by
    simp only [readObject, hMembers, bind, Except.bind, h.complete]
    rfl
  rw [encode_writeObject, read, readRecord, skipBlanks_cons (by decide)]
  simp only [if_true, hObject]
  rfl

end Shape

section Read

theorem bind_eq_ok {ε α β : Type} {x : Except ε α} {f : α → Except ε β} {b : β} :
    (x >>= f) = .ok b ↔ ∃ a, x = .ok a ∧ f a = .ok b := by
  cases x with
  | error e => exact ⟨nofun, fun ⟨_, h, _⟩ => nomatch h⟩
  | ok a => exact ⟨fun h => ⟨a, rfl, h⟩, fun ⟨_, h, hf⟩ => Except.ok.inj h ▸ hf⟩

theorem Kind.fits_of_read {kind : Kind} {text rest : List UInt8} {value : Scalar}
    (h : kind.read text = .ok (value, rest)) : kind.Fits value := by
  rw [Kind.read.eq_def] at h
  split at h
  · cases h
  split at h
  · split at h
    · obtain ⟨⟨s, after⟩, -, h⟩ := bind_eq_ok.mp h
      cases h
      trivial
    · cases h
  · split at h
    · obtain ⟨⟨n, after⟩, -, h⟩ := bind_eq_ok.mp h
      dsimp only at h
      split at h
      · split at h
        · cases h
          assumption
        · cases h
      · cases h
    · cases h

namespace Shape

variable {shape : Shape} {members result : Members} {rest : List UInt8}

theorem collects_nil : shape.Collects [] := ⟨by simp, List.nodup_nil⟩

theorem Collects.concat (h : shape.Collects members) {key : String} {value : Scalar}
    (hAllowed : shape.Allows (key, value)) (hNew : key ∉ members.map Prod.fst) :
    shape.Collects (members ++ [(key, value)]) := by
  constructor
  · rw [List.forall_mem_append, List.forall_mem_singleton]
    exact ⟨h.allowed, hAllowed⟩
  · rw [List.map_append, ← List.nodup_append_comm]
    exact List.nodup_cons.mpr ⟨hNew, h.distinct⟩

theorem readMember_collects {bound : Nat} {key : String} {text : List UInt8}
    (h : shape.Collects members)
    (hRead : shape.readMember bound members key text = .ok (result, rest)) :
    shape.Collects result := by
  rw [readMember] at hRead
  split at hRead
  · rename_i kind hKind
    split at hRead
    · cases hRead
    · obtain ⟨after, -, hRead⟩ := bind_eq_ok.mp hRead
      obtain ⟨⟨value, last⟩, hValue, hRead⟩ := bind_eq_ok.mp hRead
      cases hRead
      refine h.concat ⟨kind, mem_of_lookup hKind, Kind.fits_of_read hValue⟩ ?_
      rw [← lookup_eq_none, ← Option.not_isSome_iff_eq_none]
      assumption
  · obtain ⟨after, -, hRead⟩ := bind_eq_ok.mp hRead
    obtain ⟨last, -, hRead⟩ := bind_eq_ok.mp hRead
    cases hRead
    exact h

theorem readMembers_collects {fuel : Nat} {first : Bool} {text : List UInt8}
    (h : shape.Collects members)
    (hRead : shape.readMembers fuel first members text = .ok (result, rest)) :
    shape.Collects result := by
  induction fuel generalizing first members text with
  | zero => cases hRead
  | succ fuel ih =>
    rw [readMembers] at hRead
    split at hRead
    · cases hRead
    · split at hRead
      · cases hRead
        exact h
      · obtain ⟨opened, -, hRead⟩ := bind_eq_ok.mp hRead
        obtain ⟨⟨key, after⟩, -, hRead⟩ := bind_eq_ok.mp hRead
        obtain ⟨⟨grown, last⟩, hMember, hRead⟩ := bind_eq_ok.mp hRead
        exact ih (readMember_collects h hMember) hRead

theorem readObject_admits {text : List UInt8} (hRead : shape.readObject text = .ok (result, rest)) :
    shape.Admits result := by
  obtain ⟨⟨members, after⟩, hMembers, hRead⟩ := bind_eq_ok.mp hRead
  dsimp only at hRead
  split at hRead
  · cases hRead
    exact ⟨readMembers_collects collects_nil hMembers, ‹_›⟩
  · cases hRead

theorem readElements_admits {fields : List (String × Kind)} {text : List UInt8}
    (hPlain : shape.IsPlain) (h : shape.Collects members)
    (hNames : members.map Prod.fst ++ fields.map Prod.fst = shape.fields.map Prod.fst)
    (hFields : fields ⊆ shape.fields)
    (hRead : shape.readElements members fields text = .ok (result, rest)) :
    shape.Admits result := by
  -- The members so far are the values of the fields before `fields`.
  induction fields generalizing members text with
  | nil =>
    obtain ⟨after, -, hRead⟩ := bind_eq_ok.mp hRead
    cases hRead
    rw [List.map_nil, List.append_nil] at hNames
    exact ⟨h, missing_of_names hNames⟩
  | cons field fields ih =>
    obtain ⟨name, kind⟩ := field
    obtain ⟨next, -, hRead⟩ := bind_eq_ok.mp hRead
    cases next with
    | inl opened =>
      obtain ⟨⟨value, after⟩, hValue, hRead⟩ := bind_eq_ok.mp hRead
      obtain ⟨hField, hFields⟩ := List.cons_subset.mp hFields
      refine ih (h.concat ⟨kind, hField, Kind.fits_of_read hValue⟩ ?_) ?_ hFields hRead
      · have hDistinct := hPlain.distinct
        rw [← hNames] at hDistinct
        exact notMem_before hDistinct
      · simpa using hNames
    | inr after =>
      dsimp only at hRead
      split at hRead
      · cases hRead
      · cases hRead
        exact ⟨h, if_neg ‹_›⟩

/-- Whatever is read as a record of a shape is admitted by it. -/
theorem admits_of_read (hPlain : shape.IsPlain) {text : List UInt8}
    (hRead : shape.read text = .ok result) : shape.Admits result := by
  obtain ⟨⟨members, after⟩, hRecord, hRead⟩ := bind_eq_ok.mp hRead
  have hSame : members = result := by
    dsimp only at hRead
    split at hRead
    · exact Except.ok.inj hRead
    · cases hRead
  subst hSame
  rw [readRecord] at hRecord
  split at hRecord
  · cases hRecord
  split at hRecord
  · exact readObject_admits hRecord
  split at hRecord
  · exact readElements_admits hPlain collects_nil rfl (List.Subset.refl _) hRecord
  · cases hRecord

/-- A number of a field is within the field's range, also where the field does not occur. -/
theorem Collects.holds_whole? (h : shape.Collects members) (hPlain : shape.IsPlain) {name : String}
    {width : Decimal.Width} (hField : (name, .whole width) ∈ shape.fields)
    (hZero : width.holds 0 = true) : width.holds ((members.whole? name).getD 0) = true := by
  rw [Members.whole?]
  split
  case h_1 n hLookup =>
    obtain ⟨kind, hKind, hFits⟩ := h.allowed _ (mem_of_lookup hLookup)
    have hSame := (lookup_of_mem hPlain.distinct hField).symm.trans
      (lookup_of_mem hPlain.distinct hKind)
    obtain rfl := Option.some.inj hSame
    exact hFits
  case h_2 => exact hZero

end Shape

end Read

end EventIngest.Json
