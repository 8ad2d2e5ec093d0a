/-!
# UTF-8

Bytes are split into pieces one byte at a time: a piece is a character or a maximal ill-formed run
(the longest prefix of some well-formed sequence, or a single byte that starts none). Strict
decoding wants characters only; lossy decoding writes U+FFFD for each ill-formed piece.
-/
namespace EventIngest.Utf8

def encode (s : String) : List UInt8 := s.toList.flatMap String.utf8EncodeChar

/-- What the next byte may be: between characters, or inside one that still owes `owed + 1` bytes,
the next of them from `low` to `high`, with the bits read so far in `code`. -/
inductive Expecting where
  | character
  | continuation (owed : Nat) (low high : UInt8) (code : Nat)
  deriving DecidableEq, Repr

/-- A byte that begins a piece: what is complete after it and what is expected next. -/
def first (b : UInt8) : List (Option Char) × Expecting :=
  if b < 0x80 then ([some (Char.ofNat b.toNat)], .character)
  else if b < 0xC2 then ([none], .character)
  else if b < 0xE0 then ([], .continuation 0 0x80 0xBF (b.toNat - 0xC0))
  else if b = 0xE0 then ([], .continuation 1 0xA0 0xBF 0)
  else if b = 0xED then ([], .continuation 1 0x80 0x9F 0xD)
  else if b < 0xF0 then ([], .continuation 1 0x80 0xBF (b.toNat - 0xE0))
  else if b = 0xF0 then ([], .continuation 2 0x90 0xBF 0)
  else if b < 0xF4 then ([], .continuation 2 0x80 0xBF (b.toNat - 0xF0))
  else if b = 0xF4 then ([], .continuation 2 0x80 0x8F 4)
  else ([none], .character)

/-- One byte: the pieces that end before or with it, and what is expected next. A byte that cannot
continue a character ends the ill-formed piece before it and begins a piece of its own. -/
def step : Expecting → UInt8 → List (Option Char) × Expecting
  | .character, b => first b
  | .continuation owed low high code, b =>
    if low ≤ b ∧ b ≤ high then
      let code := code * 64 + (b.toNat - 0x80)
      match owed with
      | 0 => ([some (Char.ofNat code)], .character)
      | owed + 1 => ([], .continuation owed 0x80 0xBF code)
    else
      let (done, next) := first b
      (none :: done, next)

/-- The pieces of the bytes still to come; `none` is an ill-formed piece. -/
def piecesFrom : Expecting → List UInt8 → List (Option Char)
  | .character, [] => []
  | .continuation .., [] => [none]
  | expecting, b :: rest =>
    let (done, next) := step expecting b
    done ++ piecesFrom next rest

def pieces (bytes : List UInt8) : List (Option Char) := piecesFrom .character bytes

/-- The text whose UTF-8 form the bytes are, if they are one. -/
def decode? (bytes : List UInt8) : Option String := ((pieces bytes).mapM id).map String.ofList

/-- The text with U+FFFD for each ill-formed piece. -/
def lossy (bytes : List UInt8) : String :=
  String.ofList ((pieces bytes).map (·.getD '\uFFFD'))

def wellFormedLength (bytes : List UInt8) : Nat :=
  ((pieces bytes).takeWhile Option.isSome).foldl
    (fun n c => n + (c.map Char.utf8Size).getD 0) 0

end EventIngest.Utf8
