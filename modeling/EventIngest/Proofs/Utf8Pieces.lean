import EventIngest.Text.Utf8
import Mathlib.Data.List.Basic
/-!
# Pieces of UTF-8

The pieces into which bytes are split are the ones that the Unicode standard names: from left to
right, a character where one stands, and otherwise a maximal part of an ill-formed sequence, which is
the longest initial part of the encoding of some character or a single byte. So the bytes of a text
are read as that text, and lossy decoding changes nothing but the ill-formed parts.
-/
namespace EventIngest.Utf8

open String (utf8EncodeChar)

section Encoding

theorem val_of_eq_ofNat {c : Char} {n : Nat} (hc : c = Char.ofNat n)
    (h : n < 0xD800 ∨ (0xDFFF < n ∧ n < 0x110000)) : c.val.toNat = n := by
  rw [hc, Char.ofNat, dif_pos h]
  rfl

theorem eq_ofNat_of_val {c : Char} {n : Nat} (h : c.val.toNat = n) : c = Char.ofNat n :=
  h ▸ (Char.ofNat_toNat c).symm

theorem encodeChar_one {c : Char} {a : UInt8} :
    utf8EncodeChar c = [a] ↔ a.toNat < 0x80 ∧ c = Char.ofNat a.toNat := by
  constructor
  · intro h
    rw [utf8EncodeChar] at h
    split at h
    · obtain rfl := List.singleton_inj.mp h
      rw [UInt8.toNat_ofNat']
      exact ⟨by omega, eq_ofNat_of_val (by omega)⟩
    · split at h
      · cases h
      · split at h <;> cases h
  · rintro ⟨hLess, hc⟩
    have hValue := val_of_eq_ofNat hc (by omega)
    rw [utf8EncodeChar, hValue, if_pos (by omega), UInt8.ofNat_toNat]

theorem encodeChar_two {c : Char} {a b : UInt8} :
    utf8EncodeChar c = [a, b] ↔
      (0xC2 ≤ a.toNat ∧ a.toNat < 0xE0) ∧ (0x80 ≤ b.toNat ∧ b.toNat < 0xC0) ∧
      c = Char.ofNat ((a.toNat - 0xC0) * 64 + (b.toNat - 0x80)) := by
  constructor
  · intro h
    rw [utf8EncodeChar] at h
    split at h
    · cases h
    split at h
    · simp only [List.cons.injEq, and_true] at h
      obtain ⟨rfl, rfl⟩ := h
      simp only [UInt8.toNat_ofNat']
      exact ⟨by omega, by omega, eq_ofNat_of_val (by omega)⟩
    · split at h <;> cases h
  · rintro ⟨ha, hb, hc⟩
    have hValue := val_of_eq_ofNat hc (by omega)
    rw [utf8EncodeChar, hValue, if_neg (by omega), if_pos (by omega)]
    simp only [List.cons.injEq, and_true, ← UInt8.toNat_inj, UInt8.toNat_ofNat']
    omega

theorem encodeChar_three {c : Char} {a b d : UInt8} :
    utf8EncodeChar c = [a, b, d] ↔
      (0xE0 ≤ a.toNat ∧ a.toNat < 0xF0) ∧ (0x80 ≤ b.toNat ∧ b.toNat < 0xC0) ∧
      (0x80 ≤ d.toNat ∧ d.toNat < 0xC0) ∧ (a.toNat = 0xE0 → 0xA0 ≤ b.toNat) ∧
      (a.toNat = 0xED → b.toNat < 0xA0) ∧
      c = Char.ofNat (((a.toNat - 0xE0) * 64 + (b.toNat - 0x80)) * 64 + (d.toNat - 0x80)) := by
  constructor
  · intro h
    have hValid := c.valid
    rw [utf8EncodeChar] at h
    split at h
    · cases h
    split at h
    · cases h
    split at h
    · simp only [List.cons.injEq, and_true] at h
      obtain ⟨rfl, rfl, rfl⟩ := h
      simp only [UInt8.toNat_ofNat']
      simp only [UInt32.isValidChar, Nat.isValidChar] at hValid
      exact ⟨by omega, by omega, by omega, by omega, by omega, eq_ofNat_of_val (by omega)⟩
    · cases h
  · rintro ⟨ha, hb, hd, hFirst, hSecond, hc⟩
    have hValue := val_of_eq_ofNat hc (by omega)
    rw [utf8EncodeChar, hValue, if_neg (by omega), if_neg (by omega), if_pos (by omega)]
    simp only [List.cons.injEq, and_true, ← UInt8.toNat_inj, UInt8.toNat_ofNat']
    omega

theorem encodeChar_four {c : Char} {a b d e : UInt8} :
    utf8EncodeChar c = [a, b, d, e] ↔
      (0xF0 ≤ a.toNat ∧ a.toNat < 0xF5) ∧ (0x80 ≤ b.toNat ∧ b.toNat < 0xC0) ∧
      (0x80 ≤ d.toNat ∧ d.toNat < 0xC0) ∧ (0x80 ≤ e.toNat ∧ e.toNat < 0xC0) ∧
      (a.toNat = 0xF0 → 0x90 ≤ b.toNat) ∧ (a.toNat = 0xF4 → b.toNat < 0x90) ∧
      c = Char.ofNat ((((a.toNat - 0xF0) * 64 + (b.toNat - 0x80)) * 64 + (d.toNat - 0x80)) * 64
        + (e.toNat - 0x80)) := by
  constructor
  · intro h
    have hValid := c.valid
    rw [utf8EncodeChar] at h
    split at h
    · cases h
    split at h
    · cases h
    split at h
    · cases h
    · simp only [List.cons.injEq, and_true] at h
      obtain ⟨rfl, rfl, rfl, rfl⟩ := h
      simp only [UInt8.toNat_ofNat']
      simp only [UInt32.isValidChar, Nat.isValidChar] at hValid
      exact ⟨by omega, by omega, by omega, by omega, by omega, by omega,
        eq_ofNat_of_val (by omega)⟩
  · rintro ⟨ha, hb, hd, he, hFirst, hSecond, hc⟩
    have hValue := val_of_eq_ofNat hc (by omega)
    rw [utf8EncodeChar, hValue, if_neg (by omega), if_neg (by omega), if_neg (by omega)]
    simp only [List.cons.injEq, and_true, ← UInt8.toNat_inj, UInt8.toNat_ofNat']
    omega

theorem encodeChar_length (c : Char) :
    1 ≤ (utf8EncodeChar c).length ∧ (utf8EncodeChar c).length ≤ 4 := by
  rw [utf8EncodeChar]
  split
  · simp
  split
  · simp
  split <;> simp

/-- The bytes complete a character, of which so much is known. -/
def Completes : Nat → UInt8 → UInt8 → Nat → List UInt8 → Char → Prop
  | _, _, _, _, [], _ => False
  | 0, low, high, code, b :: rest, c =>
    (low ≤ b ∧ b ≤ high) ∧ rest = [] ∧ c = Char.ofNat (code * 64 + (b.toNat - 0x80))
  | owed + 1, low, high, code, b :: rest, c =>
    (low ≤ b ∧ b ≤ high) ∧ Completes owed 0x80 0xBF (code * 64 + (b.toNat - 0x80)) rest c

/-- After these bytes a character is completed by what is expected, and by nothing else. -/
structure Inside (read : List UInt8) (owed : Nat) (low high : UInt8) (code : Nat) : Prop where
  nonempty : read ≠ []
  possible : low ≤ high
  completes : ∀ bytes c, utf8EncodeChar c = read ++ bytes ↔ Completes owed low high code bytes c

theorem encodeChar_more {c : Char} {a b d e f : UInt8} {bytes : List UInt8} :
    utf8EncodeChar c ≠ a :: b :: d :: e :: f :: bytes := by
  intro h
  have hLength := (encodeChar_length c).2
  rw [h] at hLength
  simp only [List.length_cons] at hLength
  omega

theorem inside_two {b : UInt8} (hLeast : 0xC2 ≤ b) (hLess : b < 0xE0) :
    Inside [b] 0 0x80 0xBF (b.toNat - 0xC0) := by
  refine ⟨List.cons_ne_nil _ _, by decide, fun bytes c => ?_⟩
  rw [List.singleton_append]
  simp only [UInt8.le_iff_toNat_le, UInt8.lt_iff_toNat_lt, UInt8.reduceToNat] at hLeast hLess
  match bytes with
  | [] => grind [encodeChar_one, Completes]
  | [d] => grind [encodeChar_two, Completes, UInt8.le_iff_toNat_le, UInt8.reduceToNat]
  | [d, e] => grind [encodeChar_three, Completes]
  | [d, e, f] => grind [encodeChar_four, Completes]
  | d :: e :: f :: g :: bytes => grind [encodeChar_more, Completes]

theorem inside_three {b low high : UInt8} (hLeast : 0xE0 ≤ b) (hLess : b < 0xF0)
    (hLow : b = 0xE0 ∧ low.toNat = 0xA0 ∨ b ≠ 0xE0 ∧ low.toNat = 0x80)
    (hHigh : b = 0xED ∧ high.toNat = 0x9F ∨ b ≠ 0xED ∧ high.toNat = 0xBF) :
    Inside [b] 1 low high (b.toNat - 0xE0) := by
  simp only [UInt8.le_iff_toNat_le, UInt8.lt_iff_toNat_lt, ← UInt8.toNat_inj, ne_eq,
    UInt8.reduceToNat] at hLeast hLess hLow hHigh
  refine ⟨List.cons_ne_nil _ _, UInt8.le_iff_toNat_le.mpr (by omega), fun bytes c => ?_⟩
  rw [List.singleton_append]
  match bytes with
  | [] => grind [encodeChar_one, Completes]
  | [d] => grind [encodeChar_two, Completes]
  | [d, e] => grind [encodeChar_three, Completes, UInt8.le_iff_toNat_le, UInt8.reduceToNat]
  | [d, e, f] => grind [encodeChar_four, Completes]
  | d :: e :: f :: g :: bytes => grind [encodeChar_more, Completes]

theorem inside_four {b low high : UInt8} (hLeast : 0xF0 ≤ b) (hLess : b < 0xF5)
    (hLow : b = 0xF0 ∧ low.toNat = 0x90 ∨ b ≠ 0xF0 ∧ low.toNat = 0x80)
    (hHigh : b = 0xF4 ∧ high.toNat = 0x8F ∨ b ≠ 0xF4 ∧ high.toNat = 0xBF) :
    Inside [b] 2 low high (b.toNat - 0xF0) := by
  simp only [UInt8.le_iff_toNat_le, UInt8.lt_iff_toNat_lt, ← UInt8.toNat_inj, ne_eq,
    UInt8.reduceToNat] at hLeast hLess hLow hHigh
  refine ⟨List.cons_ne_nil _ _, UInt8.le_iff_toNat_le.mpr (by omega), fun bytes c => ?_⟩
  rw [List.singleton_append]
  match bytes with
  | [] => grind [encodeChar_one, Completes]
  | [d] => grind [encodeChar_two, Completes]
  | [d, e] => grind [encodeChar_three, Completes]
  | [d, e, f] => grind [encodeChar_four, Completes, UInt8.le_iff_toNat_le, UInt8.reduceToNat]
  | d :: e :: f :: g :: bytes => grind [encodeChar_more, Completes]

/-- A byte that is a character. -/
theorem encodeChar_ascii {b : UInt8} (h : b < 0x80) (bytes : List UInt8) (c : Char) :
    utf8EncodeChar c = b :: bytes ↔ bytes = [] ∧ c = Char.ofNat b.toNat := by
  simp only [UInt8.lt_iff_toNat_lt, UInt8.reduceToNat] at h
  match bytes with
  | [] => grind [encodeChar_one]
  | [d] => grind [encodeChar_two]
  | [d, e] => grind [encodeChar_three]
  | [d, e, f] => grind [encodeChar_four]
  | d :: e :: f :: g :: bytes => grind [encodeChar_more]

/-- A byte that begins no character. -/
theorem encodeChar_ne {b : UInt8} (h : 0x80 ≤ b ∧ b < 0xC2 ∨ 0xF5 ≤ b) (bytes : List UInt8)
    (c : Char) : utf8EncodeChar c ≠ b :: bytes := by
  simp only [UInt8.le_iff_toNat_le, UInt8.lt_iff_toNat_lt, UInt8.reduceToNat] at h
  intro hEncode
  match bytes with
  | [] => grind [encodeChar_one]
  | [d] => grind [encodeChar_two]
  | [d, e] => grind [encodeChar_three]
  | [d, e, f] => grind [encodeChar_four]
  | d :: e :: f :: g :: bytes => exact encodeChar_more hEncode

/-- A byte is a character, begins none, or begins a longer one. -/
theorem first_cases (b : UInt8) :
    (∃ c, first b = ([some c], .character) ∧
      ∀ bytes c', utf8EncodeChar c' = b :: bytes ↔ bytes = [] ∧ c' = c) ∨
    (first b = ([none], .character) ∧ ∀ bytes c, utf8EncodeChar c ≠ b :: bytes) ∨
    ∃ owed low high code, first b = ([], .continuation owed low high code) ∧
      Inside [b] owed low high code := by
  fun_cases first b with
  | case1 hLess => exact .inl ⟨_, rfl, encodeChar_ascii hLess⟩
  | case2 hMore hLess => exact .inr (.inl ⟨rfl, encodeChar_ne (by grind)⟩)
  | case3 => exact .inr (.inr ⟨_, _, _, _, rfl, inside_two (by grind) (by grind)⟩)
  | case4 =>
    subst b
    exact .inr (.inr ⟨_, _, _, _, rfl,
      inside_three (b := 0xE0) (by decide) (by decide) (by decide) (by decide)⟩)
  | case5 =>
    subst b
    exact .inr (.inr ⟨_, _, _, _, rfl,
      inside_three (b := 0xED) (by decide) (by decide) (by decide) (by decide)⟩)
  | case6 =>
    exact .inr (.inr ⟨_, _, _, _, rfl,
      inside_three (by grind) (by grind) (.inr ⟨by grind, rfl⟩) (.inr ⟨by grind, rfl⟩)⟩)
  | case7 =>
    subst b
    exact .inr (.inr ⟨_, _, _, _, rfl,
      inside_four (b := 0xF0) (by decide) (by decide) (by decide) (by decide)⟩)
  | case8 =>
    exact .inr (.inr ⟨_, _, _, _, rfl,
      inside_four (by grind) (by grind) (.inr ⟨by grind, rfl⟩) (.inr ⟨by grind, rfl⟩)⟩)
  | case9 =>
    subst b
    exact .inr (.inr ⟨_, _, _, _, rfl,
      inside_four (b := 0xF4) (by decide) (by decide) (by decide) (by decide)⟩)
  | case10 => exact .inr (.inl ⟨rfl, encodeChar_ne (by grind)⟩)

end Encoding

theorem encodeChar_eq_cons (c : Char) : ∃ b bytes, utf8EncodeChar c = b :: bytes := by
  refine List.exists_cons_of_length_pos ?_
  exact (encodeChar_length c).1

theorem Completes.eq_cons {owed code : Nat} {low high : UInt8} {bytes : List UInt8} {c : Char}
    (h : Completes owed low high code bytes c) :
    ∃ b rest, bytes = b :: rest ∧ low ≤ b ∧ b ≤ high := by
  cases bytes with
  | nil => cases owed <;> cases h
  | cons b rest => cases owed <;> exact ⟨b, rest, rfl, h.1⟩

theorem piecesFrom_cons (expecting : Expecting) (b : UInt8) (rest : List UInt8) :
    piecesFrom expecting (b :: rest)
      = (step expecting b).1 ++ piecesFrom (step expecting b).2 rest := by
  cases expecting <;> rfl

theorem step_of_mem {owed code : Nat} {low high b : UInt8} (h : low ≤ b ∧ b ≤ high) :
    step (.continuation owed low high code) b =
      match owed with
      | 0 => ([some (Char.ofNat (code * 64 + (b.toNat - 0x80)))], .character)
      | owed + 1 => ([], .continuation owed 0x80 0xBF (code * 64 + (b.toNat - 0x80))) :=
  if_pos h

theorem step_of_not_mem {owed code : Nat} {low high b : UInt8} (h : ¬ (low ≤ b ∧ b ≤ high)) :
    step (.continuation owed low high code) b = (none :: (first b).1, (first b).2) :=
  if_neg h

/-- Bytes that complete a character are read as that character. -/
theorem Completes.pieces {owed code : Nat} {low high : UInt8} {bytes : List UInt8} {c : Char}
    (h : Completes owed low high code bytes c) (rest : List UInt8) :
    piecesFrom (.continuation owed low high code) (bytes ++ rest)
      = some c :: piecesFrom .character rest := by
  induction owed generalizing low high code bytes with
  | zero =>
    obtain ⟨b, more, rfl, hRange⟩ := h.eq_cons
    obtain ⟨-, rfl, hc⟩ := h
    rw [hc, List.singleton_append, piecesFrom_cons, step_of_mem hRange]
    rfl
  | succ owed ih =>
    obtain ⟨b, more, rfl, hRange⟩ := h.eq_cons
    rw [List.cons_append, piecesFrom_cons, step_of_mem hRange]
    exact ih h.2

theorem pieces_encodeChar (c : Char) (rest : List UInt8) :
    pieces (utf8EncodeChar c ++ rest) = some c :: pieces rest := by
  obtain ⟨b, bytes, hEncode⟩ := encodeChar_eq_cons c
  rw [hEncode, pieces, List.cons_append, piecesFrom_cons, step]
  obtain ⟨c', hFirst, hChar⟩ | ⟨-, hNone⟩ | ⟨owed, low, high, code, hFirst, hInside⟩ :=
    first_cases b
  · obtain ⟨rfl, rfl⟩ := (hChar bytes c).mp hEncode
    rw [hFirst]
    rfl
  · exact absurd hEncode (hNone bytes c)
  · rw [hFirst]
    exact ((hInside.completes bytes c).mp hEncode).pieces rest

/-- No encoding of a character is an initial part of another one. -/
theorem encodeChar_append_inj {c c' : Char} {rest rest' : List UInt8}
    (h : utf8EncodeChar c ++ rest = utf8EncodeChar c' ++ rest') : c = c' ∧ rest = rest' := by
  have hPieces := congrArg pieces h
  rw [pieces_encodeChar, pieces_encodeChar] at hPieces
  obtain rfl := Option.some.inj (List.cons.inj hPieces).1
  exact ⟨rfl, List.append_cancel_left h⟩

section Texts

variable (s : String)

theorem pieces_encode : pieces (encode s) = s.toList.map some := by
  rw [encode]
  induction s.toList with
  | nil => rfl
  | cons c cs ih => rw [List.flatMap_cons, pieces_encodeChar, ih, List.map_cons]

theorem decode?_encode : decode? (encode s) = some s := by
  have hAll : ∀ cs : List Char, (cs.map some).mapM id = some cs := by
    intro cs
    induction cs with
    | nil => rfl
    | cons c cs ih => simp [ih]
  rw [decode?, pieces_encode, hAll, Option.map_some, String.ofList_toList]

theorem lossy_encode : lossy (encode s) = s := by
  rw [lossy, pieces_encode, List.map_map]
  simp [Function.comp_def]

end Texts

/-- The bytes are an initial part of the encoding of some character. -/
def IsInitial (bytes : List UInt8) : Prop := ∃ c, bytes <+: utf8EncodeChar c

/-- The piece is a maximal ill-formed part at the front of a text that goes on with `rest`. -/
structure IsBroken (piece rest : List UInt8) : Prop where
  nonempty : piece ≠ []
  noChar : ∀ c, ¬ utf8EncodeChar c <+: piece ++ rest
  initial : piece.length = 1 ∨ IsInitial piece
  maximal : ∀ longer, piece <+: longer → longer <+: piece ++ rest → IsInitial longer →
    longer = piece

/-- How a text is to be read from left to right, with `none` for what is ill-formed. -/
inductive Reading : List UInt8 → List (Option Char) → Prop where
  | nil : Reading [] []
  | char (c : Char) {rest : List UInt8} {ps : List (Option Char)} (h : Reading rest ps) :
    Reading (utf8EncodeChar c ++ rest) (some c :: ps)
  | broken {piece rest : List UInt8} {ps : List (Option Char)} (hBroken : IsBroken piece rest)
    (h : Reading rest ps) : Reading (piece ++ rest) (none :: ps)

theorem IsBroken.unique {piece rest piece' rest' : List UInt8} (h : IsBroken piece rest)
    (h' : IsBroken piece' rest') (hText : piece ++ rest = piece' ++ rest') :
    piece = piece' ∧ rest = rest' := by
  suffices hPiece : piece = piece' by
    subst hPiece
    exact ⟨rfl, List.append_cancel_left hText⟩
  have hPrefix : piece <+: piece' ++ rest' := hText ▸ List.prefix_append _ _
  have hPrefix' : piece' <+: piece ++ rest := hText ▸ List.prefix_append _ _
  -- A piece of one byte is the shorter one, so the longer one is an initial part of an encoding.
  have hLonger : ∀ {p q r : List UInt8}, IsBroken p r → q <+: p ++ r → p <+: q →
      (q.length = 1 ∨ IsInitial q) → q = p := by
    intro p q r hp hq hpq hInitial
    obtain hOne | hInitial := hInitial
    · have hPos := List.length_pos_iff.mpr hp.nonempty
      exact (hpq.eq_of_length_le (by omega)).symm
    · exact hp.maximal q hpq hq hInitial
  obtain hLe | hLe := List.prefix_or_prefix_of_prefix hPrefix (List.prefix_append piece' rest')
  · exact (hLonger h hPrefix' hLe h'.initial).symm
  · exact hLonger h' hPrefix hLe h.initial

theorem Reading.unique {text : List UInt8} {ps qs : List (Option Char)} (h : Reading text ps)
    (h' : Reading text qs) : ps = qs := by
  induction h generalizing qs with
  | nil =>
    generalize hText : ([] : List UInt8) = text at h'
    cases h' with
    | nil => rfl
    | char c =>
      obtain ⟨b, bytes, hEncode⟩ := encodeChar_eq_cons c
      simp [hEncode] at hText
    | broken hBroken => exact absurd (List.append_eq_nil_iff.mp hText.symm).1 hBroken.nonempty
  | @char c rest ps h ih =>
    generalize hText : utf8EncodeChar c ++ rest = text at h'
    cases h' with
    | nil =>
      obtain ⟨b, bytes, hEncode⟩ := encodeChar_eq_cons c
      simp [hEncode] at hText
    | char c' h' =>
      obtain ⟨rfl, rfl⟩ := encodeChar_append_inj hText
      rw [ih h']
    | broken hBroken => exact absurd ⟨rest, hText⟩ (hBroken.noChar c)
  | @broken piece rest ps hBroken h ih =>
    generalize hText : piece ++ rest = text at h'
    cases h' with
    | nil => exact absurd (List.append_eq_nil_iff.mp hText).1 hBroken.nonempty
    | char c' => exact absurd ⟨_, hText.symm⟩ (hBroken.noChar c')
    | broken hBroken' h' =>
      obtain ⟨rfl, rfl⟩ := hBroken.unique hBroken' hText
      rw [ih h']

namespace Inside

variable {read rest : List UInt8} {owed code : Nat} {low high b : UInt8}

theorem isInitial (h : Inside read owed low high code) : IsInitial read := by
  have hSome : ∀ (owed : Nat) (low high : UInt8) (code : Nat), low ≤ high →
      ∃ bytes c, Completes owed low high code bytes c := by
    intro owed
    induction owed with
    | zero => exact fun low high code hRange => ⟨[low], _, ⟨UInt8.le_refl _, hRange⟩, rfl, rfl⟩
    | succ owed ih =>
      intro low high code hRange
      obtain ⟨bytes, c, hCompletes⟩ := ih 0x80 0xBF (code * 64 + (low.toNat - 0x80)) (by decide)
      exact ⟨low :: bytes, c, ⟨UInt8.le_refl _, hRange⟩, hCompletes⟩
  obtain ⟨bytes, c, hCompletes⟩ := hSome owed low high code h.possible
  exact ⟨c, bytes, ((h.completes bytes c).mpr hCompletes).symm⟩

theorem next (h : Inside read (owed + 1) low high code) (hRange : low ≤ b ∧ b ≤ high) :
    Inside (read ++ [b]) owed 0x80 0xBF (code * 64 + (b.toNat - 0x80)) := by
  refine ⟨by simp, by decide, fun bytes c => ?_⟩
  rw [List.append_assoc, List.singleton_append, h.completes, Completes]
  exact and_iff_right hRange

theorem last (h : Inside read 0 low high code) (hRange : low ≤ b ∧ b ≤ high) :
    utf8EncodeChar (Char.ofNat (code * 64 + (b.toNat - 0x80))) = read ++ [b] :=
  (h.completes [b] _).mpr ⟨hRange, rfl, rfl⟩

/-- What is read is broken if the next byte, should there be one, is not expected. -/
theorem isBroken (h : Inside read owed low high code)
    (hRest : ∀ b more, rest = b :: more → ¬ (low ≤ b ∧ b ≤ high)) : IsBroken read rest := by
  -- Nothing that goes on as a character does agrees with the rest.
  have hStops : ∀ more c, utf8EncodeChar c = read ++ more → ∀ b next, rest = b :: next →
      more.head? ≠ some b := by
    intro more c hMore b next hNext hHead
    obtain ⟨d, tail, rfl, hRange⟩ := ((h.completes more c).mp hMore).eq_cons
    obtain rfl := Option.some.inj hHead
    exact hRest _ next hNext hRange
  refine ⟨h.nonempty, fun c hPrefix => ?_, .inr h.isInitial, fun longer hLonger hText hInitial => ?_⟩
  · obtain ⟨c', more, hMore⟩ := h.isInitial
    obtain hLe | ⟨tail, hTail⟩ :=
      List.prefix_or_prefix_of_prefix hPrefix (List.prefix_append read rest)
    · -- A character inside of what is read would be an initial part of another one.
      obtain ⟨inner, rfl⟩ := hLe
      rw [List.append_assoc] at hMore
      have hSame := encodeChar_append_inj (hMore.trans (List.append_nil _).symm)
      obtain ⟨d, tail, hHead, -⟩ :=
        ((h.completes more c').mp (by rw [List.append_assoc, hMore])).eq_cons
      simp [hHead] at hSame
    · obtain ⟨d, next, rfl, -⟩ := ((h.completes tail c).mp hTail.symm).eq_cons
      rw [← hTail, List.prefix_append_right_inj] at hPrefix
      obtain ⟨last, hLast⟩ := hPrefix
      exact hStops _ c hTail.symm d _ hLast.symm rfl
  · obtain ⟨more, rfl⟩ := hLonger
    cases more with
    | nil => exact List.append_nil _
    | cons d more =>
      obtain ⟨c, tail, hTail⟩ := hInitial
      rw [List.prefix_append_right_inj] at hText
      obtain ⟨last, hLast⟩ := hText
      rw [List.append_assoc] at hTail
      exact absurd rfl (hStops _ c hTail.symm d _ hLast.symm)

end Inside

theorem isBroken_of_none {b : UInt8} (h : ∀ bytes c, utf8EncodeChar c ≠ b :: bytes)
    (rest : List UInt8) : IsBroken [b] rest := by
  refine ⟨List.cons_ne_nil _ _, ?_, .inl rfl, ?_⟩
  · rintro c ⟨tail, hTail⟩
    obtain ⟨d, bytes, hEncode⟩ := encodeChar_eq_cons c
    rw [hEncode] at hTail
    obtain ⟨rfl, -⟩ := List.cons.inj hTail
    exact h bytes c hEncode
  · rintro longer ⟨more, rfl⟩ - ⟨c, tail, hTail⟩
    exact absurd hTail.symm (h _ c)

/-- The pieces are a reading of the bytes, also inside of a character. -/
theorem reading_piecesFrom (text : List UInt8) :
    Reading text (piecesFrom .character text) ∧
    ∀ read owed low high code, Inside read owed low high code →
      Reading (read ++ text) (piecesFrom (.continuation owed low high code) text) := by
  induction text with
  | nil => exact ⟨.nil, fun read owed low high code h => .broken (h.isBroken nofun) .nil⟩
  | cons b text ih =>
    obtain ⟨ihChar, ihInside⟩ := ih
    have hFirst : Reading (b :: text) (piecesFrom .character (b :: text)) := by
      rw [piecesFrom_cons, step]
      obtain ⟨c, hFirst, hChar⟩ | ⟨hFirst, hNone⟩ | ⟨owed, low, high, code, hFirst, hInside⟩ :=
        first_cases b
      · rw [hFirst]
        have hReading := Reading.char c ihChar
        rwa [(hChar [] c).mpr ⟨rfl, rfl⟩] at hReading
      · rw [hFirst]
        exact .broken (isBroken_of_none hNone text) ihChar
      · rw [hFirst]
        exact ihInside [b] owed low high code hInside
    refine ⟨hFirst, fun read owed low high code h => ?_⟩
    rw [piecesFrom_cons]
    by_cases hRange : low ≤ b ∧ b ≤ high
    · rw [step_of_mem hRange]
      cases owed with
      | zero =>
        have hReading := Reading.char (Char.ofNat (code * 64 + (b.toNat - 0x80))) ihChar
        rwa [h.last hRange, List.append_assoc] at hReading
      | succ owed =>
        have hReading := ihInside _ _ _ _ _ (h.next hRange)
        rwa [List.append_assoc] at hReading
    · rw [step_of_not_mem hRange]
      rw [piecesFrom_cons, step] at hFirst
      refine .broken (h.isBroken ?_) hFirst
      intro d more hMore
      obtain ⟨rfl, rfl⟩ := List.cons.inj hMore
      exact hRange

theorem reading_iff {text : List UInt8} {ps : List (Option Char)} :
    Reading text ps ↔ pieces text = ps :=
  ⟨fun h => (reading_piecesFrom text).1.unique h, fun h => h ▸ (reading_piecesFrom text).1⟩

end EventIngest.Utf8
