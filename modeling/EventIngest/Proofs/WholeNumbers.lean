import EventIngest.Settings.Reading
import Mathlib.Data.List.TakeWhile
/-!
# Whole numbers in text

Exactly those texts are read as a whole number of a range that are digits, at least one, after at
most one sign, with a value of the range. White space around such a text is dropped and nothing else.
-/
namespace EventIngest

namespace Text

def Framed (core value : List Char) : Prop :=
  ∃ before after, value = before ++ core ++ after ∧
    (∀ c ∈ before, isBlankChar c = true) ∧ ∀ c ∈ after, isBlankChar c = true

/-- The text has white space at neither end. -/
structure IsTight (core : List Char) : Prop where
  head : ∀ c ∈ core.head?, isBlankChar c = false
  last : ∀ c ∈ core.getLast?, isBlankChar c = false

theorem framed_trim (s : String) : Framed (trim s).toList s.toList := by
  let rest := s.toList.dropWhile isBlankChar
  refine ⟨s.toList.takeWhile isBlankChar, (rest.reverse.takeWhile isBlankChar).reverse, ?_, ?_, ?_⟩
  · have hRest : (rest.reverse.dropWhile isBlankChar).reverse
        ++ (rest.reverse.takeWhile isBlankChar).reverse = rest := by
      rw [← List.reverse_append, List.takeWhile_append_dropWhile, List.reverse_reverse]
    rw [trim, String.toList_ofList, List.append_assoc, hRest, List.takeWhile_append_dropWhile]
  · exact List.all_eq_true.mp List.all_takeWhile
  · intro c hc
    exact List.all_eq_true.mp List.all_takeWhile c (List.mem_reverse.mp hc)

theorem dropWhile_of_head {cs : List Char} (h : ∀ c ∈ cs.head?, isBlankChar c = false) :
    cs.dropWhile isBlankChar = cs := by
  cases cs with
  | nil => rfl
  | cons c cs => exact List.dropWhile_cons_of_neg (by simp [h c rfl])

theorem trim_of_framed {core : List Char} {s : String} (hCore : IsTight core)
    (h : Framed core s.toList) : (trim s).toList = core := by
  obtain ⟨before, after, hText, hBefore, hAfter⟩ := h
  rw [trim, String.toList_ofList, hText, List.append_assoc, List.dropWhile_append_of_pos hBefore]
  have hBlank : ∀ c ∈ after.reverse, isBlankChar c = true :=
    fun c hc => hAfter c (List.mem_reverse.mp hc)
  cases core with
  | nil =>
    rw [List.nil_append, List.dropWhile_eq_nil_iff.mpr hAfter]
    rfl
  | cons c cs =>
    have hHead : ∀ d ∈ (c :: cs ++ after).head?, isBlankChar d = false := hCore.head
    have hLast : ∀ d ∈ (c :: cs).reverse.head?, isBlankChar d = false := by
      rw [List.head?_reverse]
      exact hCore.last
    rw [dropWhile_of_head hHead, List.reverse_append, List.dropWhile_append_of_pos hBlank,
      dropWhile_of_head hLast, List.reverse_reverse]

/-- The printed characters of ASCII are not white space. -/
theorem not_blank_of_printed {c : Char} (hLow : 0x20 < c.toNat) (hHigh : c.toNat < 0x80) :
    isBlankChar c = false := by
  simp [isBlankChar, blankRanges]
  omega

theorem isDigit_not_blank {c : Char} (h : c.isDigit = true) : isBlankChar c = false := by
  obtain ⟨hLow, hHigh⟩ := Char.isDigit_iff_toNat.mp h
  exact not_blank_of_printed (Nat.lt_of_lt_of_le (by decide) hLow)
    (Nat.lt_of_le_of_lt hHigh (by decide))

theorem toLower_of_blank {c : Char} (h : isBlankChar c = true) : c.toLower = c := by
  refine dif_neg ?_
  rintro ⟨hLow, hHigh⟩
  have hPrinted := not_blank_of_printed
    (Nat.lt_of_lt_of_le (by decide) (UInt32.le_iff_toNat_le.mp hLow))
    (Nat.lt_of_le_of_lt (UInt32.le_iff_toNat_le.mp hHigh) (by decide))
  rw [hPrinted] at h
  cases h

theorem tight_of_lower {cs : List Char} (h : IsTight (cs.map Char.toLower)) : IsTight cs := by
  have hKept {c : Char} (hc : isBlankChar c.toLower = false) : isBlankChar c = false := by
    cases hBlank : isBlankChar c with
    | false => rfl
    | true => rwa [toLower_of_blank hBlank, hBlank] at hc
  constructor
  · intro c hc
    exact hKept (h.head c.toLower (by rw [List.head?_map, hc]; rfl))
  · intro c hc
    exact hKept (h.last c.toLower (by rw [List.getLast?_map, hc]; rfl))

end Text

namespace Decimal

def IsNumeral (cs : List Char) : Prop := cs ≠ [] ∧ ∀ c ∈ cs, c.isDigit = true

/-- The ways to write a whole number; a minus sign needs a range with negative numbers. -/
inductive Width.Spells (w : Width) : List Char → Int → Prop
  | plain {cs : List Char} (h : IsNumeral cs) : w.Spells cs (Nat.ofDigitChars 10 cs 0)
  | plus {cs : List Char} (h : IsNumeral cs) : w.Spells ('+' :: cs) (Nat.ofDigitChars 10 cs 0)
  | minus {cs : List Char} (hw : w.least < 0) (h : IsNumeral cs) :
    w.Spells ('-' :: cs) (-(Nat.ofDigitChars 10 cs 0 : Int))

theorem le_ofDigitChars (cs : List Char) (n : Nat) : n ≤ Nat.ofDigitChars 10 cs n := by
  induction cs generalizing n with
  | nil => exact Nat.le_refl n
  | cons c cs ih =>
    rw [Nat.ofDigitChars_cons]
    have hRest := ih (10 * n + (c.toNat - '0'.toNat))
    omega

variable {limit : Nat} {beyond : WholeError} {cs : List Char}

theorem readDigits_eq_ok_iff {n m : Nat} (hn : n ≤ limit) :
    readDigits limit beyond n cs = .ok m ↔
      (∀ c ∈ cs, c.isDigit = true) ∧ Nat.ofDigitChars 10 cs n = m ∧ m ≤ limit := by
  induction cs generalizing n with
  | nil =>
    simp only [readDigits, Except.ok.injEq, List.not_mem_nil, false_imp_iff, implies_true, true_and,
      Nat.ofDigitChars_nil]
    constructor
    · rintro rfl
      exact ⟨rfl, hn⟩
    · exact And.left
  | cons c cs ih =>
    rw [List.forall_mem_cons, Nat.ofDigitChars_cons, Nat.mul_comm 10 n]
    by_cases hDigit : c.isDigit = true
    · by_cases hMore : n * 10 + (c.toNat - '0'.toNat) ≤ limit
      · simp only [readDigits, hDigit, if_true, hMore, ih hMore, true_and]
      · have hBeyond := le_ofDigitChars cs (n * 10 + (c.toNat - '0'.toNat))
        simp only [readDigits, hDigit, if_true, hMore, if_false, reduceCtorEq, true_and, false_iff]
        rintro ⟨-, rfl, hLimit⟩
        omega
    · simp [readDigits, hDigit]

theorem readMagnitude_eq_ok_iff {m : Nat} :
    readMagnitude limit beyond cs = .ok m ↔
      IsNumeral cs ∧ Nat.ofDigitChars 10 cs 0 = m ∧ m ≤ limit := by
  cases cs with
  | nil => simp [readMagnitude, IsNumeral]
  | cons c cs =>
    rw [readMagnitude, List.isEmpty_cons, if_neg Bool.false_ne_true,
      readDigits_eq_ok_iff (Nat.zero_le limit), IsNumeral]
    simp only [ne_eq, reduceCtorEq, not_false_eq_true, true_and]

theorem map_eq_ok_iff {x : Except WholeError Nat} {f : Int → Int} {n : Int} :
    (do let m ← x; pure (m : Int) : Except WholeError Int).map f = .ok n ↔
      ∃ m, x = .ok m ∧ f (m : Int) = n := by
  cases x with
  | error e => exact ⟨nofun, nofun⟩
  | ok m => simp [Except.map, bind, Except.bind, pure, Except.pure]

namespace Width

variable {w : Width} {n : Int}

theorem spells_nil : ¬ w.Spells [] n := by
  intro h
  cases h with
  | plain hNumeral => exact hNumeral.1 rfl

theorem spells_minus (hw : w.least < 0) :
    w.Spells ('-' :: cs) n ↔ IsNumeral cs ∧ -(Nat.ofDigitChars 10 cs 0 : Int) = n := by
  constructor
  · intro h
    cases h with
    | plain hNumeral => exact absurd (hNumeral.2 '-' List.mem_cons_self) (by decide)
    | minus _ hNumeral => exact ⟨hNumeral, rfl⟩
  · rintro ⟨hNumeral, rfl⟩
    exact .minus hw hNumeral

theorem spells_plus :
    w.Spells ('+' :: cs) n ↔ IsNumeral cs ∧ (Nat.ofDigitChars 10 cs 0 : Int) = n := by
  constructor
  · intro h
    cases h with
    | plain hNumeral => exact absurd (hNumeral.2 '+' List.mem_cons_self) (by decide)
    | plus hNumeral => exact ⟨hNumeral, rfl⟩
  · rintro ⟨hNumeral, rfl⟩
    exact .plus hNumeral

theorem spells_plain {c : Char} (hMinus : ¬ (c = '-' ∧ w.least < 0)) (hPlus : c ≠ '+') :
    w.Spells (c :: cs) n ↔
      IsNumeral (c :: cs) ∧ (Nat.ofDigitChars 10 (c :: cs) 0 : Int) = n := by
  constructor
  · intro h
    cases h with
    | plain hNumeral => exact ⟨hNumeral, rfl⟩
    | plus _ => exact absurd rfl hPlus
    | minus hw _ => exact absurd ⟨rfl, hw⟩ hMinus
  · rintro ⟨hNumeral, rfl⟩
    exact .plain hNumeral

theorem read_eq_ok_iff (hw : w.holds 0 = true) {s : String} :
    w.read s = .ok n ↔ w.Spells s.toList n ∧ w.holds n = true := by
  obtain ⟨hLeast, hGreatest⟩ : w.least ≤ 0 ∧ 0 ≤ w.greatest := of_decide_eq_true hw
  rw [Width.read]
  cases s.toList with
  | nil => exact ⟨nofun, fun h => absurd h.1 spells_nil⟩
  | cons c cs =>
    by_cases hMinus : c = '-' ∧ w.least < 0
    · obtain ⟨rfl, hNegative⟩ := hMinus
      simp only [true_and, hNegative, if_true, map_eq_ok_iff, readMagnitude_eq_ok_iff,
        spells_minus hNegative]
      constructor
      · rintro ⟨m, ⟨hNumeral, rfl, hLimit⟩, rfl⟩
        exact ⟨⟨hNumeral, rfl⟩, decide_eq_true (by omega)⟩
      · rintro ⟨⟨hNumeral, rfl⟩, hHolds⟩
        have hRange := of_decide_eq_true hHolds
        exact ⟨_, ⟨hNumeral, rfl, by omega⟩, rfl⟩
    · have hRead {ds : List Char} :
          (∃ m, (IsNumeral ds ∧ Nat.ofDigitChars 10 ds 0 = m ∧ m ≤ w.greatest.toNat) ∧ (m : Int) = n) ↔
            (IsNumeral ds ∧ (Nat.ofDigitChars 10 ds 0 : Int) = n) ∧ w.holds n = true := by
        constructor
        · rintro ⟨m, ⟨hNumeral, rfl, hLimit⟩, rfl⟩
          exact ⟨⟨hNumeral, rfl⟩, decide_eq_true (by omega)⟩
        · rintro ⟨⟨hNumeral, rfl⟩, hHolds⟩
          have hRange := of_decide_eq_true hHolds
          exact ⟨_, ⟨hNumeral, rfl, by omega⟩, rfl⟩
      by_cases hPlus : c = '+'
      · subst hPlus
        simp only [hMinus, if_false, if_true, map_eq_ok_iff, readMagnitude_eq_ok_iff, spells_plus, hRead]
      · simp only [hMinus, hPlus, if_false, map_eq_ok_iff, readMagnitude_eq_ok_iff,
          spells_plain hMinus hPlus, hRead]

end Width

theorem IsNumeral.tight (h : IsNumeral cs) : Text.IsTight cs where
  head c hc := Text.isDigit_not_blank (h.2 c (List.mem_of_head? hc))
  last c hc := Text.isDigit_not_blank (h.2 c (List.mem_of_getLast? hc))

/-- A sign before digits leaves the last character as it is. -/
theorem IsNumeral.tight_cons (h : IsNumeral cs) {sign : Char}
    (hSign : Text.isBlankChar sign = false) : Text.IsTight (sign :: cs) where
  head c hc := by
    cases hc
    exact hSign
  last c hc := by
    rw [List.getLast?_cons_of_ne_nil h.1] at hc
    exact h.tight.last c hc

theorem Width.Spells.tight {w : Width} {n : Int} (h : w.Spells cs n) : Text.IsTight cs := by
  cases h with
  | plain hNumeral => exact hNumeral.tight
  | plus hNumeral => exact hNumeral.tight_cons (by decide)
  | minus _ hNumeral => exact hNumeral.tight_cons (by decide)

/-- The text is a whole number of the range, with white space around it. -/
def Width.Reads (w : Width) (s : String) (n : Int) : Prop :=
  ∃ core, Text.Framed core s.toList ∧ w.Spells core n ∧ w.holds n = true

theorem Width.reads_iff {w : Width} (hw : w.holds 0 = true) {s : String} {n : Int} :
    w.Reads s n ↔ w.read (Text.trim s) = .ok n := by
  rw [read_eq_ok_iff hw]
  constructor
  · rintro ⟨core, hFramed, hSpells, hHolds⟩
    rw [Text.trim_of_framed hSpells.tight hFramed]
    exact ⟨hSpells, hHolds⟩
  · rintro ⟨hSpells, hHolds⟩
    exact ⟨_, Text.framed_trim s, hSpells, hHolds⟩

end Decimal

end EventIngest
