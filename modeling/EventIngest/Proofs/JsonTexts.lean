import EventIngest.Json.Record
/-!
# JSON texts

The grammar of JSON as trees that keep how a text is written: its white space, its escapes and the
digits of its numbers. Every tree has one text. What a literal, a number or a member stands for is
read off the tree, without a reader. Plain bytes inside a literal may be any but quotes, backslashes
and controls; a literal is a text only if they are UTF-8.
-/
namespace EventIngest.Json

structure Blanks where
  bytes : List UInt8
  blank : ∀ b ∈ bytes, isBlank b = true

def Blanks.none : Blanks := ⟨[], List.forall_mem_nil _⟩

namespace Literal

/-- A byte that stands for itself inside a literal. -/
def IsPlain (b : UInt8) : Prop := b ≠ quote ∧ b ≠ backslash ∧ ¬ b < 0x20

instance : DecidablePred IsPlain := fun _ => inferInstanceAs (Decidable (_ ∧ _ ∧ _))

inductive Piece where
  | plain (b : UInt8) (isPlain : IsPlain b)
  | short (b c : UInt8) (isShort : shortEscape b = some c)
  | code (x y z w : UInt8) (n : Nat) (isCode : hexNumber [x, y, z, w] = some n)

def Piece.text : Piece → List UInt8
  | .plain b _ => [b]
  | .short b _ _ => [backslash, b]
  | .code x y z w _ _ => [backslash, 0x75, x, y, z, w]

/-- A literal after its opening quote. -/
def text (ps : List Piece) : List UInt8 := ps.flatMap Piece.text ++ [quote]

/-- The bytes that pieces stand for. A high surrogate has to be followed at once by a low one, which
stands nowhere else. -/
def bytes? : List Piece → Option (List UInt8)
  | [] => some []
  | .plain b _ :: ps => (bytes? ps).map (b :: ·)
  | .short _ c _ :: ps => (bytes? ps).map (c :: ·)
  | .code _ _ _ _ n _ :: ps =>
    if isLowSurrogate n then none
    else if isHighSurrogate n then
      match ps with
      | .code _ _ _ _ m _ :: ps =>
        if isLowSurrogate m then (bytes? ps).map (encoded (joinSurrogates n m) ++ ·) else none
      | _ => none
    else (bytes? ps).map (encoded n ++ ·)

/-- The text that a literal stands for, if it is one of Unicode. -/
def content? (ps : List Piece) : Option String := (bytes? ps).bind Utf8.decode?

/-- The plain bytes among the given ones, as pieces. -/
def plainly (bytes : List UInt8) : List Piece :=
  bytes.filterMap fun b => if h : IsPlain b then some (.plain b h) else none

end Literal

namespace Number

structure Digits where
  bytes : List UInt8
  nonempty : bytes ≠ []
  digits : ∀ b ∈ bytes, isDigit b = true

inductive Sign where
  | none
  | plus
  | minus

def Sign.text : Sign → List UInt8
  | .none => []
  | .plus => [Number.plus]
  | .minus => [Number.minus]

structure Exponent where
  mark : UInt8
  isMark : isExponentMark mark = true
  sign : Sign
  digits : Digits

end Number

open Number (Digits Exponent)

structure Numeral where
  negative : Bool
  whole : Digits
  noLeadingZero : ∀ ds, whole.bytes = 0x30 :: ds → ds = []
  fraction : Option Digits
  exponent : Option Exponent

namespace Numeral

def fractionText : Option Digits → List UInt8
  | none => []
  | some ds => Number.point :: ds.bytes

def exponentText : Option Exponent → List UInt8
  | none => []
  | some e => e.mark :: (e.sign.text ++ e.digits.bytes)

def text (n : Numeral) : List UInt8 :=
  (if n.negative then [Number.minus] else [])
    ++ (n.whole.bytes ++ (fractionText n.fraction ++ exponentText n.exponent))

/-- The whole number of 64 bits that a numeral without fraction and exponent stands for. -/
def whole? (n : Numeral) : Option Int :=
  match n.fraction, n.exponent with
  | none, none => Number.wholeOf? n.negative n.whole.bytes
  | _, _ => none

end Numeral

def Frame.opening : Frame → UInt8
  | .list => openList
  | .object => openObject

/-- What stands before a value inside a bracket. -/
inductive Lead : Frame → Type where
  | element (before : Blanks) : Lead .list
  | member (before : Blanks) (key : List Literal.Piece) (between after : Blanks) : Lead .object

def Lead.text {frame : Frame} : Lead frame → List UInt8
  | .element before => before.bytes
  | .member before key between after =>
    before.bytes
      ++ Literal.quote :: (Literal.text key ++ (between.bytes ++ colon :: after.bytes))

mutual

inductive Tree where
  | word (b : UInt8) (after : List UInt8) (isWord : wordAfter b = some after)
  | number (n : Numeral)
  | literal (ps : List Literal.Piece)
  | bracket (frame : Frame) (items : Items frame)

inductive Items : Frame → Type where
  | nil {frame : Frame} (inner : Blanks) : Items frame
  | cons {frame : Frame} (lead : Lead frame) (value : Tree) (after : Blanks) (more : Items frame) :
    Items frame

end

mutual

def Tree.text : Tree → List UInt8
  | .word b after _ => b :: after
  | .number n => n.text
  | .literal ps => Literal.quote :: Literal.text ps
  | .bracket frame items => frame.opening :: items.text true

/-- The text of items up to and including the closing bracket; all but the first come after a
comma. -/
def Items.text {frame : Frame} : Items frame → Bool → List UInt8
  | .nil inner, _ => inner.bytes ++ [frame.close]
  | .cons lead value after more, first =>
    (if first then [] else [comma])
      ++ (lead.text ++ (value.text ++ (after.bytes ++ more.text false)))

end

structure Item (frame : Frame) where
  lead : Lead frame
  value : Tree
  after : Blanks

def Items.ofList {frame : Frame} (inner : Blanks) : List (Item frame) → Items frame
  | [] => .nil inner
  | item :: items => .cons item.lead item.value item.after (ofList inner items)

abbrev Member := Item .object

def Item.key (m : Member) : List Literal.Piece :=
  match m.lead with
  | .member _ key _ _ => key

/-- A text that is one object or one list, with blanks around it. -/
structure Document (frame : Frame) where
  before : Blanks
  items : List (Item frame)
  inner : Blanks
  after : Blanks

def Document.tree {frame : Frame} (d : Document frame) : Tree :=
  .bracket frame (.ofList d.inner d.items)

def Document.text {frame : Frame} (d : Document frame) : List UInt8 :=
  d.before.bytes ++ (d.tree.text ++ d.after.bytes)

def Kind.value? : Kind → Tree → Option Scalar
  | .text, .literal ps => (Literal.content? ps).map .text
  | .whole width, .number n => (n.whole?.filter width.holds).map .whole
  | _, _ => none

section Alike

/-- Items of brackets that differ at most in blanks and in how their keys are written. -/
inductive Lead.Alike : {frame : Frame} → Lead frame → Lead frame → Prop where
  | element (before before' : Blanks) : Alike (.element before) (.element before')
  | member (before before' between between' after after' : Blanks) {key key' : List Literal.Piece}
    (sameKey : Literal.content? key = Literal.content? key') :
    Alike (.member before key between after) (.member before' key' between' after')

mutual

/-- Trees that differ at most in blanks and in how keys are written. -/
inductive Tree.Alike : Tree → Tree → Prop where
  | refl (t : Tree) : Tree.Alike t t
  | bracket {frame : Frame} {items items' : Items frame} (h : Items.Alike items items') :
    Tree.Alike (.bracket frame items) (.bracket frame items')

inductive Items.Alike : {frame : Frame} → Items frame → Items frame → Prop where
  | nil {frame : Frame} (inner inner' : Blanks) :
    Items.Alike (.nil inner : Items frame) (.nil inner')
  | cons {frame : Frame} {lead lead' : Lead frame} {value value' : Tree} (after after' : Blanks)
    {more more' : Items frame} (hLead : Lead.Alike lead lead') (hValue : Tree.Alike value value')
    (hMore : Items.Alike more more') :
    Items.Alike (.cons lead value after more) (.cons lead' value' after' more')

end

structure Item.Alike {frame : Frame} (a b : Item frame) : Prop where
  lead : Lead.Alike a.lead b.lead
  value : Tree.Alike a.value b.value

end Alike

end EventIngest.Json
