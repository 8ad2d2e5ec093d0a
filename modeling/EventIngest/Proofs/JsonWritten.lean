import EventIngest.Json.Record
import EventIngest.Proofs.Utf8Pieces
import Mathlib.Data.List.TakeDrop
import Mathlib.Tactic.IntervalCases
/-!
# What is written as JSON is read back

Literals and whole numbers are read back as they were written: a literal whatever follows it, a
number unless more of a number follows.
-/
namespace EventIngest

open String (utf8EncodeChar)

def Utf8.bytesOf (cs : List Char) : List UInt8 := cs.flatMap utf8EncodeChar

namespace Utf8

@[simp] theorem bytesOf_nil : bytesOf [] = [] := rfl

@[simp] theorem bytesOf_cons (c : Char) (cs : List Char) :
    bytesOf (c :: cs) = utf8EncodeChar c ++ bytesOf cs := List.flatMap_cons

@[simp] theorem bytesOf_append (cs ds : List Char) :
    bytesOf (cs ++ ds) = bytesOf cs ++ bytesOf ds := List.flatMap_append

theorem encode_eq_bytesOf (s : String) : encode s = bytesOf s.toList := rfl

theorem encode_ofList (cs : List Char) : encode (String.ofList cs) = bytesOf cs := by
  rw [encode_eq_bytesOf, String.toList_ofList]

end Utf8

namespace Json

open Utf8

namespace Literal

theorem scan_plain {bytes : List UInt8}
    (h : ∀ b ∈ bytes, b ≠ quote ∧ b ≠ backslash ∧ ¬ b < 0x20) (done rest : List UInt8) :
    scan .plain done (bytes ++ rest) = scan .plain (bytes.reverse ++ done) rest := by
  induction bytes generalizing done with
  | nil => rfl
  | cons b bytes ih =>
    obtain ⟨⟨hQuote, hBackslash, hControl⟩, hRest⟩ := List.forall_mem_cons.mp h
    simp only [List.cons_append, scan, hQuote, and_false, if_false, advance, hBackslash, hControl]
    rw [ih hRest]
    simp

/-- The bytes of a character that is written as it is. -/
theorem plain_of_mem_encodeChar {c : Char} (hQuote : c ≠ '"') (hBackslash : c ≠ '\\')
    (hControl : ¬ c < ' ') {b : UInt8} (hb : b ∈ utf8EncodeChar c) :
    b ≠ quote ∧ b ≠ backslash ∧ ¬ b < 0x20 := by
  have hQuoteVal : c.val.toNat ≠ 0x22 := fun h => hQuote (eq_ofNat_of_val h)
  have hBackslashVal : c.val.toNat ≠ 0x5C := fun h => hBackslash (eq_ofNat_of_val h)
  have hControlVal : ¬ c.val.toNat < 0x20 := hControl
  suffices h : b.toNat ≠ 0x22 ∧ b.toNat ≠ 0x5C ∧ ¬ b.toNat < 0x20 by
    simpa [quote, backslash, ← UInt8.toNat_inj, UInt8.lt_iff_toNat_lt] using h
  rw [utf8EncodeChar] at hb
  split at hb
  · obtain rfl := List.mem_singleton.mp hb
    rw [UInt8.toNat_ofNat']
    omega
  -- All bytes of a longer character lie above the ASCII range.
  suffices h : 0x80 ≤ b.toNat by omega
  split at hb
  · simp only [List.mem_cons, List.not_mem_nil, or_false] at hb
    obtain rfl | rfl := hb <;> rw [UInt8.toNat_ofNat'] <;> omega
  split at hb
  · simp only [List.mem_cons, List.not_mem_nil, or_false] at hb
    obtain rfl | rfl | rfl := hb <;> rw [UInt8.toNat_ofNat'] <;> omega
  · simp only [List.mem_cons, List.not_mem_nil, or_false] at hb
    obtain rfl | rfl | rfl | rfl := hb <;> rw [UInt8.toNat_ofNat'] <;> omega

theorem scan_control {n : Nat} (h : n < 0x20) (done rest : List UInt8) :
    scan .plain done
      (bytesOf ['\\', 'u', '0', '0', hexDigit (n / 16), hexDigit (n % 16)] ++ rest)
      = scan .plain ((utf8EncodeChar (Char.ofNat n)).reverse ++ done) rest := by
  interval_cases n <;> rfl

theorem scan_writeChar (c : Char) (done rest : List UInt8) :
    scan .plain done (bytesOf (writeChar c) ++ rest)
      = scan .plain ((utf8EncodeChar c).reverse ++ done) rest := by
  fun_cases writeChar c with
  | case8 =>
    have hScan := scan_control (n := c.toNat) (by assumption) done rest
    rwa [Char.ofNat_toNat] at hScan
  | case9 =>
    rw [bytesOf_cons, bytesOf_nil, List.append_nil]
    exact scan_plain (fun b => plain_of_mem_encodeChar ‹_› ‹_› ‹_›) done rest
  | _ => subst c; rfl

theorem scan_written (cs : List Char) (done rest : List UInt8) :
    scan .plain done (bytesOf (cs.flatMap writeChar) ++ quote :: rest)
      = .ok (done.reverse ++ bytesOf cs, rest) := by
  induction cs generalizing done with
  | nil => simp [scan]
  | cons c cs ih =>
    rw [List.flatMap_cons, bytesOf_append, List.append_assoc, scan_writeChar, ih]
    simp

/-- A literal is read back, whatever follows it. -/
theorem read_written (s : String) (rest : List UInt8) :
    read (bytesOf (s.toList.flatMap writeChar) ++ quote :: rest) = .ok (s, rest) := by
  rw [read, scan_written, List.reverse_nil, List.nil_append, ← encode_eq_bytesOf]
  simp only [bind, Except.bind, decode?_encode]
  rfl

end Literal

namespace Number

def decimal (n : Nat) : List UInt8 := bytesOf (Nat.toDigits 10 n)

theorem encode_digitChar {d : Nat} (h : d < 10) :
    utf8EncodeChar d.digitChar = [UInt8.ofNat (0x30 + d)] := by
  interval_cases d <;> rfl

theorem decimal_of_lt {n : Nat} (h : n < 10) : decimal n = [UInt8.ofNat (0x30 + n)] := by
  rw [decimal, Nat.toDigits_of_lt_base h, bytesOf_cons, bytesOf_nil, encode_digitChar h,
    List.append_nil]

theorem decimal_of_le {n : Nat} (h : 10 ≤ n) :
    decimal n = decimal (n / 10) ++ [UInt8.ofNat (0x30 + n % 10)] := by
  rw [decimal, Nat.toDigits_of_base_le (by decide) h, bytesOf_append, bytesOf_cons, bytesOf_nil,
    encode_digitChar (Nat.mod_lt n (by decide)), List.append_nil, decimal]

theorem isDigit_ofNat {d : Nat} (h : d < 10) : isDigit (UInt8.ofNat (0x30 + d)) = true := by
  interval_cases d <;> rfl

theorem digitValue_ofNat {d : Nat} (h : d < 10) : digitValue (UInt8.ofNat (0x30 + d)) = d := by
  interval_cases d <;> rfl

/-- Induction over the decimal digits of a number. -/
theorem digit_induction {P : Nat → Prop} (digit : ∀ n < 10, P n)
    (more : ∀ n, 10 ≤ n → P (n / 10) → P n) (n : Nat) : P n := by
  induction n using Nat.strong_induction_on with
  | h n ih =>
    obtain hLess | hLe := Nat.lt_or_ge n 10
    · exact digit n hLess
    · exact more n hLe (ih (n / 10) (by omega))

theorem isDigit_of_mem_decimal {n : Nat} : ∀ b ∈ decimal n, isDigit b = true := by
  induction n using digit_induction with
  | digit n hLess =>
    rw [decimal_of_lt hLess, List.forall_mem_singleton]
    exact isDigit_ofNat hLess
  | more n hLe ih =>
    rw [decimal_of_le hLe, List.forall_mem_append, List.forall_mem_singleton]
    exact ⟨ih, isDigit_ofNat (Nat.mod_lt n (by decide))⟩

/-- A positive number is written without leading zeros. -/
theorem decimal_eq_cons (n : Nat) : ∃ b ds, decimal n = b :: ds ∧ (0 < n → b ≠ 0x30) := by
  induction n using digit_induction with
  | digit n hLess =>
    refine ⟨_, [], decimal_of_lt hLess, ?_⟩
    interval_cases n <;> decide
  | more n hLe ih =>
    obtain ⟨b, ds, hDecimal, hb⟩ := ih
    exact ⟨b, ds ++ [_], by rw [decimal_of_le hLe, hDecimal, List.cons_append],
      fun _ => hb (by omega)⟩

theorem valueBelow_append {limit m k : Nat} {ds : List UInt8}
    (h : valueBelow limit m ds = .ok k) (es : List UInt8) :
    valueBelow limit m (ds ++ es) = valueBelow limit k es := by
  induction ds generalizing m with
  | nil => cases h; rfl
  | cons d ds ih =>
    rw [valueBelow] at h
    rw [List.cons_append, valueBelow]
    split at h
    · rw [if_pos ‹_›]
      exact ih h
    · cases h

theorem valueBelow_decimal {limit n : Nat} (h : n < limit) :
    valueBelow limit 0 (decimal n) = .ok n := by
  induction n using digit_induction with
  | digit n hLess =>
    rw [decimal_of_lt hLess, valueBelow, digitValue_ofNat hLess, Nat.zero_mul, Nat.zero_add,
      if_pos h, valueBelow]
  | more n hLe ih =>
    rw [decimal_of_le hLe, valueBelow_append (ih (by omega)), valueBelow,
      digitValue_ofNat (Nat.mod_lt n (by decide)), Nat.div_add_mod', if_pos h, valueBelow]

/-- The text does not go on with the digits that stand before it. -/
def NoDigit (text : List UInt8) : Prop := ∀ b more, text = b :: more → isDigit b = false

/-- The text does not go on with the number that stands before it. -/
def Ends (text : List UInt8) : Prop :=
  ∀ b more, text = b :: more → isDigit b = false ∧ b ≠ point ∧ isExponentMark b = false

theorem Ends.noDigit {text : List UInt8} (h : Ends text) : NoDigit text :=
  fun b more hText => (h b more hText).1

theorem digits_append {ds rest : List UInt8} (hDigits : ∀ b ∈ ds, isDigit b = true)
    (hRest : NoDigit rest) : digits (ds ++ rest) = (ds, rest) := by
  have hStop : rest.takeWhile isDigit = [] ∧ rest.dropWhile isDigit = rest := by
    cases rest with
    | nil => exact ⟨rfl, rfl⟩
    | cons b more => simp [hRest b more rfl]
  rw [digits, List.span_eq_takeWhile_dropWhile, List.takeWhile_append_of_pos hDigits,
    List.dropWhile_append_of_pos hDigits, hStop.1, hStop.2, List.append_nil]

/-- Digits of a whole part are read as far as they go, unless they begin with a zero in vain. -/
theorem readWhole_append {b : UInt8} {ds rest : List UInt8}
    (hDigits : ∀ c ∈ b :: ds, isDigit c = true) (hZero : b = 0x30 → ds = [])
    (hRest : NoDigit rest) : readWhole (b :: ds ++ rest) = .ok (b :: ds, rest) := by
  rw [List.cons_append, readWhole.eq_def]
  by_cases hb : b = 0x30
  · obtain rfl := hZero hb
    cases rest with
    | nil => simp [hb]
    | cons c more => simp [hb, hRest c more rfl]
  · simp only [if_neg hb, if_pos (hDigits b List.mem_cons_self)]
    rw [← List.cons_append, digits_append hDigits hRest]

theorem readWhole_decimal (n : Nat) {rest : List UInt8} (hRest : Ends rest) :
    readWhole (decimal n ++ rest) = .ok (decimal n, rest) := by
  obtain ⟨b, ds, hDecimal, hb⟩ := decimal_eq_cons n
  have hDigits := isDigit_of_mem_decimal (n := n)
  have hZero : b = 0x30 → ds = [] := by
    rintro rfl
    obtain rfl : n = 0 := Nat.eq_zero_of_not_pos fun hPos => hb hPos rfl
    exact (List.cons.inj hDecimal).2.symm
  rw [hDecimal] at hDigits ⊢
  exact readWhole_append hDigits hZero hRest.noDigit

theorem readFraction_of_ends {rest : List UInt8} (hRest : Ends rest) :
    readFraction rest = .ok (none, rest) := by
  cases rest with
  | nil => rfl
  | cons b more => rw [readFraction, if_neg (hRest b more rfl).2.1]

theorem readExponent_of_ends {rest : List UInt8} (hRest : Ends rest) :
    readExponent rest = .ok (none, rest) := by
  cases rest with
  | nil => rfl
  | cons b more => simp [readExponent, (hRest b more rfl).2.2]

theorem wholeOf?_decimal {n : Nat} (h : n < 0x10000000000000000) :
    wholeOf? false (decimal n) = some (n : Int) := by
  rw [wholeOf?, valueBelow_decimal h]
  rfl

theorem wholeOf?_decimal_neg {n : Nat} (hPos : 0 < n) (h : n ≤ 0x8000000000000000) :
    wholeOf? true (decimal n) = some (-(n : Int)) := by
  simp [wholeOf?, valueBelow_decimal (show n < 0x10000000000000000 by omega), hPos, h]

def signedDecimal (negative : Bool) (n : Nat) : List UInt8 :=
  if negative then minus :: decimal n else decimal n

theorem read_signedDecimal {negative : Bool} {n : Nat} {m : Int}
    (h : wholeOf? negative (decimal n) = some m) {rest : List UInt8} (hRest : Ends rest) :
    read (signedDecimal negative n ++ rest) = .ok (.whole m, rest) := by
  cases negative with
  | true =>
    change read (minus :: (decimal n ++ rest)) = _
    simp only [read, if_true, readWhole_decimal n hRest, readFraction_of_ends hRest,
      readExponent_of_ends hRest, h, bind, Except.bind, pure, Except.pure]
  | false =>
    obtain ⟨b, ds, hDecimal, -⟩ := decimal_eq_cons n
    have hb : b ≠ minus := by
      rintro rfl
      exact absurd (isDigit_of_mem_decimal minus (hDecimal ▸ List.mem_cons_self)) (by decide)
    have hWhole := readWhole_decimal n hRest
    change read (decimal n ++ rest) = _
    rw [hDecimal, List.cons_append] at hWhole ⊢
    rw [hDecimal] at h
    simp only [read, if_neg hb, hWhole, readFraction_of_ends hRest,
      readExponent_of_ends hRest, h, bind, Except.bind, pure, Except.pure]

theorem bytesOf_toString (n : Int) :
    bytesOf (toString n).toList = signedDecimal (decide (n < 0)) n.natAbs := by
  rw [Int.toString_eq_repr, Int.repr_eq_if]
  obtain hNegative | hNatural := lt_or_ge n 0
  · rw [if_neg (Int.not_le.mpr hNegative), decide_eq_true hNegative, String.toList_append,
      bytesOf_append, Nat.toList_repr, show (-n).toNat = n.natAbs by omega]
    rfl
  · rw [if_pos hNatural, decide_eq_false (Int.not_lt.mpr hNatural), Nat.toList_repr,
      show n.toNat = n.natAbs by omega]
    rfl

/-- A whole number of 64 bits is read back, unless more of a number follows. -/
theorem read_written {n : Int} (hLeast : -0x8000000000000000 ≤ n)
    (hGreatest : n < 0x10000000000000000) {rest : List UInt8} (hRest : Ends rest) :
    read (bytesOf (toString n).toList ++ rest) = .ok (.whole n, rest) := by
  rw [bytesOf_toString]
  refine read_signedDecimal ?_ hRest
  obtain hNegative | hNatural := lt_or_ge n 0
  · rw [decide_eq_true hNegative, wholeOf?_decimal_neg (by omega) (by omega)]
    exact congrArg some (by omega)
  · rw [decide_eq_false (by omega), wholeOf?_decimal (by omega)]
    exact congrArg some (by omega)

end Number

end Json

end EventIngest
