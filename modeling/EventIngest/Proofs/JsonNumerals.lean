import EventIngest.Proofs.JsonLiterals
import Mathlib.Data.List.TakeWhile
/-!
# Numbers of the grammar

Stepping over a number accepts exactly the numerals of the grammar. Reading one gives a whole number
exactly if the numeral has neither fraction nor exponent and fits 64 bits.
-/
namespace EventIngest.Json

namespace Number

theorem Digits.eq_cons (ds : Digits) : ∃ b more, ds.bytes = b :: more ∧ isDigit b = true := by
  obtain ⟨bytes, hNonempty, hDigits⟩ := ds
  cases bytes with
  | nil => exact absurd rfl hNonempty
  | cons b more => exact ⟨b, more, rfl, hDigits b List.mem_cons_self⟩

theorem noDigit_cons {b : UInt8} (h : isDigit b = false) (rest : List UInt8) :
    NoDigit (b :: rest) := by
  rintro b' more hText
  obtain ⟨rfl, -⟩ := List.cons.inj hText
  exact h

theorem mark_not_digit {b : UInt8} (h : isExponentMark b = true) :
    isDigit b = false ∧ b ≠ point := by
  rw [isExponentMark, decide_eq_true_eq] at h
  rcases h with rfl | rfl
  · decide
  · decide

theorem sign_not_digit {b : UInt8} (h : isDigit b = true) : b ≠ plus ∧ b ≠ minus := by
  constructor
  · rintro rfl
    exact absurd h (by decide)
  · rintro rfl
    exact absurd h (by decide)

def dropMinus : List UInt8 → List UInt8
  | [] => []
  | b :: rest => if b = minus then rest else b :: rest

def skipWhole : List UInt8 → Except Fault (List UInt8)
  | [] => .error (.atEnd .badNumber)
  | b :: rest =>
    if b = 0x30 then
      match rest with
      | [] => .ok []
      | c :: _ => if isDigit c then .error (.on .badNumber rest) else .ok rest
    else if isDigit b then .ok (digits rest).2
    else .error (.before .badNumber rest)

theorem dropMinus_eq (bytes : List UInt8) :
    dropMinus bytes = match bytes with
      | b :: rest => if b = minus then rest else bytes
      | [] => [] := by
  cases bytes with
  | nil => rfl
  | cons b rest => rfl

theorem skip_eq (bytes : List UInt8) :
    skip bytes = skipWhole (dropMinus bytes) >>= fun rest =>
      skipFraction rest >>= skipExponent := by
  fun_cases skip bytes with
  | case1 text goOn hText => rw [(dropMinus_eq bytes).trans hText]; rfl
  | case2 text goOn hText => rw [(dropMinus_eq bytes).trans hText]; rfl
  | case3 text goOn c tail hDigit hText =>
    rw [(dropMinus_eq bytes).trans hText, skipWhole, if_pos rfl]
    simp only [if_pos hDigit]
    rfl
  | case4 text goOn c tail hDigit hText =>
    rw [(dropMinus_eq bytes).trans hText, skipWhole, if_pos rfl]
    simp only [if_neg hDigit]
    rfl
  | case5 text goOn b tail hText hZero hDigit =>
    rw [(dropMinus_eq bytes).trans hText, skipWhole.eq_def]
    simp only [if_neg hZero, if_pos hDigit]
    rfl
  | case6 text goOn b tail hText hZero hDigit =>
    rw [(dropMinus_eq bytes).trans hText, skipWhole.eq_def]
    simp only [if_neg hZero, if_neg hDigit]
    rfl

def startsMinus (bytes : List UInt8) : Bool := bytes.head? == some minus

/-- The number of these parts. -/
def finish (negative : Bool) (ds : List UInt8) (fraction : Option (List UInt8))
    (exponent : Option (Bool × List UInt8)) (rest : List UInt8) :
    Except Fault (Number × List UInt8) :=
  match fraction, exponent, wholeOf? negative ds with
  | none, none, some n => return (.whole n, rest)
  | _, _, _ => do
    let x ← realOf negative ds fraction exponent rest
    return (.real x, rest)

theorem read_eq (bytes : List UInt8) :
    read bytes = readWhole (dropMinus bytes) >>= fun (ds, rest) =>
      readFraction rest >>= fun (fraction, rest) =>
        readExponent rest >>= fun (exponent, rest) =>
          finish (startsMinus bytes) ds fraction exponent rest := by
  cases bytes with
  | nil => rfl
  | cons b bytes =>
    rw [startsMinus, dropMinus, Number.read.eq_def]
    by_cases hMinus : b = minus
    · simp only [hMinus, List.head?_cons]
      rfl
    · have hHead : (some b == some minus) = false :=
        beq_eq_false_iff_ne.mpr (mt Option.some.inj hMinus)
      simp only [if_neg hMinus, List.head?_cons, hHead]
      rfl

theorem rest_of_finish {negative : Bool} {ds rest after : List UInt8}
    {fraction : Option (List UInt8)} {exponent : Option (Bool × List UInt8)} {n : Number}
    (h : finish negative ds fraction exponent rest = .ok (n, after)) : after = rest := by
  rw [finish.eq_def] at h
  split at h
  · cases h
    rfl
  · obtain ⟨x, -, h⟩ := bind_eq_ok.mp h
    cases h
    rfl

theorem finish_whole_iff {negative : Bool} {ds rest after : List UInt8}
    {fraction : Option (List UInt8)} {exponent : Option (Bool × List UInt8)} {m : Int} :
    finish negative ds fraction exponent rest = .ok (.whole m, after) ↔
      fraction = none ∧ exponent = none ∧ wholeOf? negative ds = some m ∧ after = rest := by
  have hReal (x : Except Fault Float) :
      (do let y ← x; return (Number.real y, rest)) ≠ Except.ok (Number.whole m, after) := by
    cases x with
    | error e => exact nofun
    | ok y => exact nofun
  rw [finish.eq_def]
  split
  · rename_i n hWhole
    rw [hWhole]
    constructor
    · intro h
      cases h
      exact ⟨rfl, rfl, rfl, rfl⟩
    · rintro ⟨-, -, ⟨⟩, rfl⟩
      rfl
  · rename_i hOther
    constructor
    · exact fun h => absurd h (hReal _)
    · rintro ⟨rfl, rfl, hWhole, -⟩
      exact absurd hWhole (hOther m rfl rfl)

theorem dropMinus_append (negative : Bool) (ds : Digits) (rest : List UInt8) :
    dropMinus ((if negative then [minus] else []) ++ (ds.bytes ++ rest)) = ds.bytes ++ rest := by
  cases negative with
  | true => rfl
  | false =>
    obtain ⟨b, more, hBytes, hDigit⟩ := ds.eq_cons
    rw [hBytes]
    exact if_neg (sign_not_digit hDigit).2

theorem readWhole_digits (ds : Digits) (hZero : ∀ more, ds.bytes = 0x30 :: more → more = [])
    {rest : List UInt8} (hRest : NoDigit rest) :
    readWhole (ds.bytes ++ rest) = .ok (ds.bytes, rest) := by
  obtain ⟨b, more, hBytes, -⟩ := ds.eq_cons
  have hDigits := ds.digits
  rw [hBytes] at hZero hDigits ⊢
  exact readWhole_append hDigits (fun hb => hZero more (hb ▸ rfl)) hRest

theorem skipWhole_append (ds : Digits) (hZero : ∀ more, ds.bytes = 0x30 :: more → more = [])
    {rest : List UInt8} (hRest : NoDigit rest) : skipWhole (ds.bytes ++ rest) = .ok rest := by
  obtain ⟨b, more, hBytes, hDigit⟩ := ds.eq_cons
  have hDigits := ds.digits
  rw [hBytes] at hZero hDigits ⊢
  rw [List.cons_append, skipWhole.eq_def]
  by_cases hb : b = 0x30
  · obtain rfl := hZero more (hb ▸ rfl)
    cases rest with
    | nil => simp [hb]
    | cons c after => simp [hb, hRest c after rfl]
  · have hMore := digits_append (fun c hc => hDigits c (List.mem_cons_of_mem b hc)) hRest
    simp only [if_neg hb, if_pos hDigit, hMore]

end Number

namespace Numeral

open Number

section Parts

variable {rest : List UInt8}

theorem noDigit_exponent (e : Option Exponent) (h : Ends rest) :
    NoDigit (exponentText e ++ rest) := by
  cases e with
  | none => exact h.noDigit
  | some e => exact noDigit_cons (mark_not_digit e.isMark).1 _

theorem noDigit_fraction (f : Option Digits) (e : Option Exponent) (h : Ends rest) :
    NoDigit (fractionText f ++ (exponentText e ++ rest)) := by
  cases f with
  | none => exact noDigit_exponent e h
  | some ds => exact noDigit_cons (by decide) _

theorem not_point (e : Option Exponent) (h : Ends rest) {b : UInt8} {more : List UInt8}
    (hText : exponentText e ++ rest = b :: more) : b ≠ point := by
  cases e with
  | none => exact (h b more hText).2.1
  | some e =>
    obtain ⟨rfl, -⟩ := List.cons.inj hText
    exact (mark_not_digit e.isMark).2

theorem skipDigits_append (ds : Digits) (h : NoDigit rest) (fault : List UInt8 → Fault) :
    skipDigits fault (ds.bytes ++ rest) = .ok rest := by
  obtain ⟨b, more, hBytes, -⟩ := ds.eq_cons
  rw [skipDigits, digits_append ds.digits h, hBytes]

theorem skipFraction_text (f : Option Digits) (e : Option Exponent) (h : Ends rest) :
    skipFraction (fractionText f ++ (exponentText e ++ rest)) = .ok (exponentText e ++ rest) := by
  cases f with
  | none =>
    rw [fractionText, List.nil_append]
    cases hText : exponentText e ++ rest with
    | nil => rfl
    | cons b more => rw [skipFraction, if_neg (not_point e h hText)]
  | some ds =>
    rw [fractionText, List.cons_append, skipFraction, if_pos rfl]
    exact skipDigits_append ds (noDigit_exponent e h) _

theorem skipExponent_text (e : Option Exponent) (h : Ends rest) :
    skipExponent (exponentText e ++ rest) = .ok rest := by
  cases e with
  | none =>
    rw [exponentText, List.nil_append]
    cases rest with
    | nil => rfl
    | cons b more => simp [skipExponent, (h b more rfl).2.2]
  | some e =>
    obtain ⟨mark, hMark, sign, ds⟩ := e
    rw [exponentText, List.cons_append, List.append_assoc]
    cases sign with
    | none =>
      obtain ⟨b, more, hBytes, hDigit⟩ := ds.eq_cons
      have hDigits := skipDigits_append ds h.noDigit fun r => .before .badNumber (r.drop 1)
      rw [Sign.text, List.nil_append, hBytes, List.cons_append] at *
      simp only [skipExponent, hMark, if_true, (sign_not_digit hDigit).1, (sign_not_digit hDigit).2,
        or_self, if_false]
      exact hDigits
    | plus =>
      simp only [Sign.text, List.singleton_append, skipExponent, hMark, if_true, true_or]
      exact skipDigits_append ds h.noDigit _
    | minus =>
      simp only [Sign.text, List.singleton_append, skipExponent, hMark, if_true, or_true]
      exact skipDigits_append ds h.noDigit _

theorem readFraction_text (f : Option Digits) (e : Option Exponent) (h : Ends rest) :
    readFraction (fractionText f ++ (exponentText e ++ rest))
      = .ok (f.map Digits.bytes, exponentText e ++ rest) := by
  cases f with
  | none =>
    rw [fractionText, List.nil_append]
    cases hText : exponentText e ++ rest with
    | nil => rfl
    | cons b more =>
      rw [readFraction, if_neg (not_point e h hText)]
      rfl
  | some ds =>
    obtain ⟨b, more, hBytes, -⟩ := ds.eq_cons
    rw [fractionText, List.cons_append, readFraction, if_pos rfl,
      digits_append ds.digits (noDigit_exponent e h), hBytes, Option.map_some, hBytes]

theorem readExponent_text (e : Option Exponent) (h : Ends rest) :
    ∃ read, readExponent (exponentText e ++ rest) = .ok (read, rest) ∧ read.isSome = e.isSome := by
  cases e with
  | none => exact ⟨none, readExponent_of_ends h, rfl⟩
  | some e =>
    obtain ⟨mark, hMark, sign, ds⟩ := e
    obtain ⟨b, more, hBytes, hDigit⟩ := ds.eq_cons
    have hDigits := digits_append ds.digits h.noDigit
    rw [exponentText, List.cons_append, List.append_assoc]
    rw [hBytes, List.cons_append] at *
    cases sign with
    | none =>
      refine ⟨some (false, b :: more), ?_, rfl⟩
      simp [Sign.text, readExponent, hMark, (sign_not_digit hDigit).1, (sign_not_digit hDigit).2,
        hDigit, hDigits]
    | plus =>
      refine ⟨some (false, b :: more), ?_, rfl⟩
      simp [Sign.text, readExponent, hMark, hDigit, hDigits]
    | minus =>
      refine ⟨some (true, b :: more), ?_, rfl⟩
      simp [Sign.text, readExponent, hMark, hDigit, hDigits, show minus ≠ plus by decide]

end Parts

theorem text_append (n : Numeral) (rest : List UInt8) :
    n.text ++ rest = (if n.negative then [minus] else [])
      ++ (n.whole.bytes ++ (fractionText n.fraction ++ (exponentText n.exponent ++ rest))) := by
  simp only [text, List.append_assoc]

theorem skip_text (n : Numeral) {rest : List UInt8} (h : Ends rest) :
    Number.skip (n.text ++ rest) = .ok rest := by
  have hWhole := skipWhole_append n.whole n.noLeadingZero (noDigit_fraction n.fraction n.exponent h)
  rw [text_append, skip_eq, dropMinus_append n.negative n.whole, hWhole]
  simp only [bind, Except.bind, skipFraction_text n.fraction n.exponent h,
    skipExponent_text n.exponent h]

theorem startsMinus_text (n : Numeral) (rest : List UInt8) :
    startsMinus (n.text ++ rest) = n.negative := by
  rw [text_append]
  cases n.negative with
  | true => rfl
  | false =>
    obtain ⟨b, more, hBytes, hDigit⟩ := n.whole.eq_cons
    rw [hBytes]
    exact beq_eq_false_iff_ne.mpr fun hHead => (sign_not_digit hDigit).2 (Option.some.inj hHead)

theorem read_text (n : Numeral) {rest : List UInt8} (h : Ends rest) :
    ∃ e : Option (Bool × List UInt8), e.isSome = n.exponent.isSome ∧
      Number.read (n.text ++ rest)
        = finish n.negative n.whole.bytes (n.fraction.map Digits.bytes) e rest := by
  obtain ⟨e, hExponent, hSome⟩ := readExponent_text n.exponent h
  have hWhole := readWhole_digits n.whole n.noLeadingZero (noDigit_fraction n.fraction n.exponent h)
  have hFraction := readFraction_text n.fraction n.exponent h
  refine ⟨e, hSome, ?_⟩
  rw [read_eq, startsMinus_text, text_append, dropMinus_append, hWhole]
  simp only [bind, Except.bind, hFraction, hExponent]

theorem whole?_eq_some {n : Numeral} {m : Int} :
    n.whole? = some m ↔
      n.fraction = none ∧ n.exponent = none ∧ wholeOf? n.negative n.whole.bytes = some m := by
  rw [whole?]
  cases n.fraction with
  | some ds => simp
  | none =>
    cases n.exponent with
    | some e => simp
    | none => simp

/-- Of the numerals only those that stand for a whole number are read as one. -/
theorem read_whole_iff (n : Numeral) {rest : List UInt8} (h : Ends rest) (m : Int)
    (after : List UInt8) :
    Number.read (n.text ++ rest) = .ok (.whole m, after) ↔ n.whole? = some m ∧ after = rest := by
  obtain ⟨e, hSome, hRead⟩ := read_text n h
  have hNone : e = none ↔ n.exponent = none := by
    rw [← Option.not_isSome_iff_eq_none, ← Option.not_isSome_iff_eq_none, hSome]
  rw [hRead, finish_whole_iff, whole?_eq_some, hNone, Option.map_eq_none_iff]
  tauto

end Numeral

namespace Number

theorem eq_digits_append {bytes : List UInt8} (h : (digits bytes).1 ≠ []) :
    ∃ ds : Digits, ds.bytes = (digits bytes).1 ∧ bytes = ds.bytes ++ (digits bytes).2 := by
  rw [digits, List.span_eq_takeWhile_dropWhile] at *
  exact ⟨⟨bytes.takeWhile isDigit, h, fun b hb => List.mem_takeWhile_imp hb⟩, rfl,
    List.takeWhile_append_dropWhile.symm⟩

theorem digits_cons {b : UInt8} (h : isDigit b = true) (bytes : List UInt8) :
    digits (b :: bytes) = (b :: (digits bytes).1, (digits bytes).2) := by
  simp [digits, List.span_eq_takeWhile_dropWhile, h]

variable {bytes rest : List UInt8}

theorem eq_digits_of_skip {fault : List UInt8 → Fault} (h : skipDigits fault bytes = .ok rest) :
    ∃ ds : Digits, bytes = ds.bytes ++ rest := by
  rw [skipDigits] at h
  split at h
  · cases h
  · rename_i ds after hNonempty hSpan
    cases h
    have hFirst : (digits bytes).1 ≠ [] := by
      rw [hSpan]
      exact hNonempty
    obtain ⟨ds, -, hBytes⟩ := eq_digits_append hFirst
    rw [hSpan] at hBytes
    exact ⟨ds, hBytes⟩

theorem eq_whole_of_skip (h : skipWhole bytes = .ok rest) :
    ∃ ds : Digits, (∀ more, ds.bytes = 0x30 :: more → more = []) ∧ bytes = ds.bytes ++ rest := by
  have hZero (after : List UInt8) : ∃ ds : Digits,
      (∀ more, ds.bytes = 0x30 :: more → more = []) ∧ 0x30 :: after = ds.bytes ++ after := by
    refine ⟨⟨[0x30], by decide, List.forall_mem_singleton.mpr rfl⟩, fun more hMore => ?_, rfl⟩
    exact (List.cons.inj hMore).2.symm
  fun_cases skipWhole bytes with
  | case2 =>
    cases h
    exact hZero []
  | case4 c after =>
    rw [skipWhole, if_pos rfl] at h
    simp only [if_neg ‹_›] at h
    cases h
    exact hZero _
  | case5 b after hNotZero hDigit =>
    rw [skipWhole.eq_def] at h
    simp only [if_neg hNotZero, if_pos hDigit] at h
    cases h
    have hSpan := digits_cons hDigit after
    have hFirst : (digits (b :: after)).1 ≠ [] := by
      rw [hSpan]
      exact List.cons_ne_nil _ _
    obtain ⟨ds, hds, hBytes⟩ := eq_digits_append hFirst
    rw [hSpan] at hds hBytes
    refine ⟨ds, fun more hMore => ?_, hBytes⟩
    rw [hds] at hMore
    exact absurd (List.cons.inj hMore).1 hNotZero
  | _ => simp_all [skipWhole]

theorem eq_fraction_of_skip (h : skipFraction bytes = .ok rest) :
    ∃ f, bytes = Numeral.fractionText f ++ rest := by
  rw [skipFraction.eq_def] at h
  split at h
  · cases h
    exact ⟨none, rfl⟩
  · split at h
    · obtain ⟨ds, rfl⟩ := eq_digits_of_skip h
      subst_vars
      exact ⟨some ds, rfl⟩
    · cases h
      exact ⟨none, rfl⟩

theorem eq_exponent_of_skip (h : skipExponent bytes = .ok rest) :
    ∃ e, bytes = Numeral.exponentText e ++ rest := by
  rw [skipExponent.eq_def] at h
  split at h
  · cases h
    exact ⟨none, rfl⟩
  · rename_i b after
    split at h
    · rename_i hMark
      split at h
      · rename_i s tail
        obtain ⟨ds, hds⟩ := eq_digits_of_skip h
        by_cases hPlus : s = plus
        · subst hPlus
          obtain rfl : tail = ds.bytes ++ rest := hds
          exact ⟨some ⟨b, hMark, .plus, ds⟩, rfl⟩
        by_cases hMinus : s = minus
        · subst hMinus
          obtain rfl : tail = ds.bytes ++ rest := hds
          exact ⟨some ⟨b, hMark, .minus, ds⟩, rfl⟩
        · rw [if_neg (not_or.mpr ⟨hPlus, hMinus⟩)] at hds
          exact ⟨some ⟨b, hMark, .none, ds⟩, congrArg _ hds⟩
      · cases h
    · cases h
      exact ⟨none, rfl⟩

theorem dropMinus_text (bytes : List UInt8) :
    bytes = (if startsMinus bytes then [minus] else []) ++ dropMinus bytes := by
  cases bytes with
  | nil => rfl
  | cons b bytes =>
    by_cases hMinus : b = minus
    · subst hMinus
      rfl
    · simp [startsMinus, dropMinus, hMinus]

theorem eq_text_of_skip (h : skip bytes = .ok rest) : ∃ n : Numeral, bytes = n.text ++ rest := by
  rw [skip_eq] at h
  obtain ⟨afterWhole, hWhole, h⟩ := bind_eq_ok.mp h
  obtain ⟨afterFraction, hFraction, hExponent⟩ := bind_eq_ok.mp h
  obtain ⟨ds, hZero, hds⟩ := eq_whole_of_skip hWhole
  obtain ⟨f, rfl⟩ := eq_fraction_of_skip hFraction
  obtain ⟨e, rfl⟩ := eq_exponent_of_skip hExponent
  refine ⟨⟨startsMinus bytes, ds, hZero, f, e⟩, ?_⟩
  rw [Numeral.text_append, ← hds]
  exact dropMinus_text bytes

theorem skipWhole_of_read {ds : List UInt8} (h : readWhole bytes = .ok (ds, rest)) :
    skipWhole bytes = .ok rest := by
  fun_cases readWhole bytes with
  | case5 b after hNotZero hDigit =>
    rw [readWhole.eq_def] at h
    simp only [if_neg hNotZero, if_pos hDigit, digits_cons hDigit] at h
    rw [skipWhole.eq_def]
    simp only [if_neg hNotZero, if_pos hDigit]
    cases h
    rfl
  | _ => simp_all [readWhole, skipWhole]

theorem skipDigits_of_digits {ds : List UInt8} (h : digits bytes = (ds, rest)) (hds : ds ≠ [])
    (fault : List UInt8 → Fault) : skipDigits fault bytes = .ok rest := by
  rw [skipDigits, h]
  cases ds with
  | nil => exact absurd rfl hds
  | cons d ds => rfl

theorem skipFraction_of_read {f : Option (List UInt8)} (h : readFraction bytes = .ok (f, rest)) :
    skipFraction bytes = .ok rest := by
  rw [readFraction.eq_def] at h
  split at h
  · cases h
    rfl
  · rw [skipFraction]
    split at h
    · rw [if_pos ‹_›]
      split at h
      · cases h
      · cases h
      · rename_i ds after hNonempty hSpan
        cases h
        exact skipDigits_of_digits hSpan hNonempty _
    · rw [if_neg ‹_›]
      cases h
      rfl

theorem skipExponent_of_read {e : Option (Bool × List UInt8)}
    (h : readExponent bytes = .ok (e, rest)) : skipExponent bytes = .ok rest := by
  fun_cases readExponent bytes with
  | case1 =>
    cases h
    rfl
  | case2 b after hMark negative hTail => simp [readExponent, hMark, hTail] at h
  | case3 b after hMark negative c tail hDigit ds last hTail hSpan =>
    simp only [readExponent, if_pos hMark, hTail, if_pos hDigit, hSpan] at h
    cases h
    have hNonempty : ds ≠ [] := by
      rintro rfl
      rw [digits_cons hDigit] at hSpan
      cases hSpan
    have hSkip := skipDigits_of_digits hSpan hNonempty
    cases after with
    | nil => cases hTail
    | cons s more =>
      have hAfter : (if s = plus ∨ s = minus then more else s :: more) = c :: tail := by
        dsimp only at hTail
        grind
      rw [skipExponent.eq_def]
      simp only [if_pos hMark, hAfter, hSkip]
  | case4 b after hMark negative c tail hDigit hTail =>
    simp [readExponent, hMark, hTail, hDigit] at h
  | case5 b after hMark =>
    rw [readExponent.eq_def] at h
    simp only [if_neg hMark] at h
    cases h
    rw [skipExponent.eq_def]
    simp only [if_neg hMark]

/-- A number that is read can be stepped over. -/
theorem skip_of_read {n : Number} (h : read bytes = .ok (n, rest)) : skip bytes = .ok rest := by
  rw [read_eq] at h
  obtain ⟨⟨ds, afterWhole⟩, hWhole, h⟩ := bind_eq_ok.mp h
  obtain ⟨⟨f, afterFraction⟩, hFraction, h⟩ := bind_eq_ok.mp h
  obtain ⟨⟨e, after⟩, hExponent, h⟩ := bind_eq_ok.mp h
  obtain rfl := rest_of_finish h
  rw [skip_eq, skipWhole_of_read hWhole]
  simp only [bind, Except.bind, skipFraction_of_read hFraction, skipExponent_of_read hExponent]

end Number

end EventIngest.Json
