import EventIngest.Proofs.JsonRecords
import EventIngest.Proofs.JsonTexts
/-!
# Literals of the grammar

Stepping over a literal accepts exactly the literals of the grammar. Reading one gives the text that
it stands for, and refuses it if it stands for none.
-/
namespace EventIngest.Json

theorem toOption_ok {ε α : Type} (a : α) : (Except.ok a : Except ε α).toOption = some a := rfl

theorem toOption_bind {ε α β : Type} (x : Except ε α) (f : α → Except ε β) :
    (x >>= f).toOption = x.toOption.bind fun a => (f a).toOption := by
  cases x with
  | error e => rfl
  | ok a => rfl

theorem toOption_eq_some {ε α : Type} {x : Except ε α} {a : α} :
    x.toOption = some a ↔ x = .ok a := by
  cases x with
  | error e => exact ⟨nofun, nofun⟩
  | ok b =>
    constructor
    · intro h
      exact congrArg _ (Option.some.inj h)
    · intro h
      exact congrArg _ (Except.ok.inj h)

namespace Literal

theorem text_nil : text [] = [quote] := rfl

theorem text_cons (p : Piece) (ps : List Piece) : text (p :: ps) = p.text ++ text ps := by
  rw [text, List.flatMap_cons, List.append_assoc, text]

theorem text_append (ps qs : List Piece) : text (ps ++ qs) = ps.flatMap Piece.text ++ text qs := by
  rw [text, List.flatMap_append, List.append_assoc, text]

theorem backslash_ne_quote : backslash ≠ quote := by decide

theorem shortEscape_ne {b c : UInt8} (h : shortEscape b = some c) : b ≠ 0x75 := by
  rintro rfl
  cases h

section Skipped

theorem skip_text (ps : List Piece) (rest : List UInt8) : skip (text ps ++ rest) = .ok rest := by
  induction ps with
  | nil =>
    rw [text_nil, List.singleton_append, skip.eq_def]
    rfl
  | cons p ps ih =>
    rw [text_cons, List.append_assoc]
    cases p with
    | plain b h =>
      rw [Piece.text, List.singleton_append, skip.eq_def]
      simp only [h.1, h.2.1, h.2.2, if_false, ih]
    | short b c h =>
      rw [Piece.text, List.cons_append, List.singleton_append, skip.eq_def]
      simp only [backslash_ne_quote, shortEscape_ne h, h, Option.isSome_some, if_false, if_true, ih]
    | code x y z w n h =>
      rw [Piece.text, skip.eq_def]
      simp only [List.cons_append, List.nil_append, backslash_ne_quote, h, Option.isSome_some,
        if_false, if_true, ih]

theorem eq_text_of_skip {bytes rest : List UInt8} (h : skip bytes = .ok rest) :
    ∃ ps, bytes = text ps ++ rest := by
  fun_induction skip bytes with
  | case2 after =>
    cases h
    exact ⟨[], rfl⟩
  | case4 x y z w after hCode _ ih =>
    obtain ⟨n, hn⟩ := Option.isSome_iff_exists.mp hCode
    obtain ⟨ps, hps⟩ := ih h
    exact ⟨.code x y z w n hn :: ps, by rw [text_cons, List.append_assoc, ← hps]; rfl⟩
  | case7 b after hNotCode hShort _ ih =>
    obtain ⟨c, hc⟩ := Option.isSome_iff_exists.mp hShort
    obtain ⟨ps, hps⟩ := ih h
    exact ⟨.short b c hc :: ps, by rw [text_cons, List.append_assoc, ← hps]; rfl⟩
  | case10 b after hQuote hBackslash hControl ih =>
    obtain ⟨ps, hps⟩ := ih h
    exact ⟨.plain b ⟨hQuote, hBackslash, hControl⟩ :: ps,
      by rw [text_cons, List.append_assoc, ← hps]; rfl⟩
  | _ => cases h

end Skipped

section Scanned

/-- Goes on with a literal after a byte of it, or fails there. -/
def proceed (done rest : List UInt8) :
    Except Cause (List UInt8 × Stage) → Except Fault (List UInt8 × List UInt8)
  | .error cause => .error (.before cause rest)
  | .ok (bytes, next) => scan next (bytes.reverse ++ done) rest

theorem scan_cons {stage : Stage} {b : UInt8} (h : ¬ (stage = .plain ∧ b = quote))
    (done rest : List UInt8) :
    scan stage done (b :: rest) = proceed done rest (advance stage b) := by
  rw [scan, if_neg h]
  cases advance stage b with
  | error cause => rfl
  | ok taken => rfl

theorem scan_digits {x y z w : UInt8} {n : Nat} (h : hexNumber [x, y, z, w] = some n)
    (high : Option Nat) (done rest : List UInt8) :
    scan (.digits high []) done (x :: y :: z :: w :: rest)
      = proceed done rest (finishDigits high n) := by
  simp [scan_cons, advance, proceed, h]

theorem scan_code {x y z w : UInt8} {n : Nat} (h : hexNumber [x, y, z, w] = some n)
    (done rest : List UInt8) :
    scan .plain done (Piece.text (.code x y z w n h) ++ rest)
      = proceed done rest (finishDigits none n) := by
  rw [← scan_digits h none]
  rfl

theorem scan_lowCode {x y z w : UInt8} {n : Nat} (h : hexNumber [x, y, z, w] = some n) (high : Nat)
    (done rest : List UInt8) :
    scan (.pairBackslash high) done (Piece.text (.code x y z w n h) ++ rest)
      = proceed done rest (finishDigits (some high) n) := by
  rw [← scan_digits h (some high)]
  rfl

/-- After a high surrogate nothing but the code of a low one may follow. -/
theorem scan_unpaired {ps : List Piece}
    (h : ∀ x y z w n hn qs, ps ≠ .code x y z w n hn :: qs) (high : Nat) (done rest : List UInt8) :
    (scan (.pairBackslash high) done (text ps ++ rest)).toOption = none := by
  cases ps with
  | nil => rfl
  | cons p ps =>
    rw [text_cons, List.append_assoc]
    cases p with
    | plain b hb =>
      rw [Piece.text, List.singleton_append, scan_cons (by simp), advance, if_neg hb.2.1]
      rfl
    | short b c hc =>
      rw [Piece.text, List.cons_append, scan_cons (by simp), advance, if_pos rfl]
      rw [proceed, List.singleton_append, scan_cons (by simp), advance, if_neg (shortEscape_ne hc)]
      rfl
    | code x y z w n hn => exact absurd rfl (h x y z w n hn ps)

theorem scan_text (ps : List Piece) (done rest : List UInt8) :
    (scan .plain done (text ps ++ rest)).toOption
      = (bytes? ps).map fun bytes => (done.reverse ++ bytes, rest) := by
  fun_induction bytes? ps generalizing done with
  | case1 => simp [text_nil, scan, Except.toOption]
  | case2 b hb ps ih =>
    rw [text_cons, Piece.text, List.append_assoc, List.singleton_append,
      scan_cons (fun h => hb.1 h.2), advance, if_neg hb.2.1, if_neg hb.2.2]
    rw [proceed, ih, Option.map_map]
    simp [Function.comp_def]
  | case3 b c hc ps ih =>
    rw [text_cons, Piece.text, List.append_assoc, List.cons_append, List.singleton_append,
      scan_cons (fun h => backslash_ne_quote h.2), advance, if_pos rfl]
    rw [proceed, scan_cons (by simp), advance, if_neg (shortEscape_ne hc), hc]
    rw [proceed, ih, Option.map_map]
    simp [Function.comp_def]
  | case4 x y z w n hn ps hLow =>
    rw [text_cons, List.append_assoc, scan_code, finishDigits, if_pos hLow]
    rfl
  | case5 x' y' z' w' n hn hNotLow hHigh x y z w m hm ps hLow ih =>
    rw [text_cons, List.append_assoc, scan_code, finishDigits, if_neg hNotLow, if_pos hHigh]
    rw [proceed, text_cons, List.append_assoc, scan_lowCode, finishDigits, if_pos hLow]
    rw [proceed, ih, Option.map_map]
    simp [Function.comp_def]
  | case6 x' y' z' w' n hn hNotLow hHigh x y z w m hm ps hOther =>
    rw [text_cons, List.append_assoc, scan_code, finishDigits, if_neg hNotLow, if_pos hHigh]
    rw [proceed, text_cons, List.append_assoc, scan_lowCode, finishDigits, if_neg hOther]
    rfl
  | case7 x' y' z' w' n hn ps hNotLow hHigh hOther =>
    rw [text_cons, List.append_assoc, scan_code, finishDigits, if_neg hNotLow, if_pos hHigh]
    exact scan_unpaired (fun x y z w m hm qs h => hOther x y z w m hm qs h) n _ rest
  | case8 x y z w n hn ps hNotLow hNotHigh ih =>
    rw [text_cons, List.append_assoc, scan_code, finishDigits, if_neg hNotLow, if_neg hNotHigh]
    rw [proceed, ih, Option.map_map]
    simp [Function.comp_def]

/-- The bytes of an escape that were already taken. -/
def Stage.opened : Stage → List UInt8
  | .plain => []
  | .escape => [backslash]
  | .digits _ read => backslash :: 0x75 :: read
  | .pairBackslash _ => []
  | .pairLetter _ => [backslash]

def Stage.Fits : Stage → Prop
  | .digits _ read => read.length < 4
  | _ => True

theorem finishDigits_opened {high : Option Nat} {n : Nat} {out : List UInt8} {next : Stage}
    (h : finishDigits high n = .ok (out, next)) : next.Fits ∧ next.opened = [] := by
  unfold finishDigits at h
  split at h
  · split at h
    · obtain ⟨-, rfl⟩ := Prod.mk.inj (Except.ok.inj h)
      exact ⟨trivial, rfl⟩
    · cases h
  · split at h
    · cases h
    · split at h
      · obtain ⟨-, rfl⟩ := Prod.mk.inj (Except.ok.inj h)
        exact ⟨trivial, rfl⟩
      · obtain ⟨-, rfl⟩ := Prod.mk.inj (Except.ok.inj h)
        exact ⟨trivial, rfl⟩

theorem advance_opened {stage next : Stage} {b : UInt8} {out : List UInt8} (hFits : stage.Fits)
    (hOpen : ¬ (stage = .plain ∧ b = quote)) (h : advance stage b = .ok (out, next)) :
    next.Fits ∧ ∃ ps, stage.opened ++ [b] = List.flatMap Piece.text ps ++ next.opened := by
  cases stage with
  | plain =>
    rw [advance] at h
    split at h
    · cases h
      subst b
      exact ⟨trivial, [], rfl⟩
    · split at h
      · cases h
      · cases h
        have hQuote : b ≠ quote := fun hb => hOpen ⟨rfl, hb⟩
        exact ⟨trivial, [.plain b ⟨hQuote, ‹_›, ‹_›⟩], rfl⟩
  | escape =>
    rw [advance] at h
    split at h
    · cases h
      subst b
      exact ⟨Nat.succ_pos 3, [], rfl⟩
    · split at h
      · rename_i c hc
        cases h
        exact ⟨trivial, [.short b c hc], rfl⟩
      · cases h
  | digits high read =>
    rw [advance] at h
    split at h
    · cases h
      exact ⟨‹_›, [], rfl⟩
    · rename_i hFour
      split at h
      · rename_i n hn
        obtain ⟨hNext, hOpened⟩ := finishDigits_opened h
        have hThree : read.length = 3 := by
          rw [List.length_append, List.length_singleton] at hFour
          have hLess : read.length < 4 := hFits
          omega
        obtain ⟨x, y, z, rfl⟩ := List.length_eq_three.mp hThree
        exact ⟨hNext, [.code x y z b n hn], by rw [hOpened]; rfl⟩
      · cases h
  | pairBackslash high =>
    rw [advance] at h
    split at h
    · cases h
      subst b
      exact ⟨trivial, [], rfl⟩
    · cases h
  | pairLetter high =>
    rw [advance] at h
    split at h
    · cases h
      subst b
      exact ⟨Nat.succ_pos 3, [], rfl⟩
    · cases h

theorem eq_text_of_scan {stage : Stage} {done bytes out rest : List UInt8} (hFits : stage.Fits)
    (h : scan stage done bytes = .ok (out, rest)) :
    ∃ ps, stage.opened ++ bytes = text ps ++ rest := by
  -- Each byte is one more of an escape that was begun, or ends a piece.
  induction bytes generalizing stage done with
  | nil => cases h
  | cons b bytes ih =>
    by_cases hClose : stage = .plain ∧ b = quote
    · rw [scan, if_pos hClose] at h
      cases h
      obtain ⟨rfl, rfl⟩ := hClose
      exact ⟨[], rfl⟩
    · rw [scan_cons hClose] at h
      cases hAdvance : advance stage b with
      | error cause =>
        rw [hAdvance] at h
        cases h
      | ok taken =>
        rw [hAdvance, proceed] at h
        obtain ⟨hNext, ps, hps⟩ := advance_opened hFits hClose hAdvance
        obtain ⟨qs, hqs⟩ := ih hNext h
        refine ⟨ps ++ qs, ?_⟩
        rw [List.append_cons, hps, List.append_assoc, hqs, text_append, List.append_assoc]

end Scanned

theorem read_text (ps : List Piece) (rest : List UInt8) :
    (read (text ps ++ rest)).toOption = (content? ps).map (·, rest) := by
  rw [read, toOption_bind, scan_text, content?]
  cases bytes? ps with
  | none => rfl
  | some bytes =>
    simp only [Option.map_some, Option.bind_some, List.reverse_nil, List.nil_append]
    cases Utf8.decode? bytes with
    | none => rfl
    | some s => rfl

theorem eq_text_of_read {bytes rest : List UInt8} {s : String} (h : read bytes = .ok (s, rest)) :
    ∃ ps, bytes = text ps ++ rest ∧ content? ps = some s := by
  obtain ⟨⟨out, after⟩, hScan, hDecode⟩ := bind_eq_ok.mp h
  have hAfter : after = rest := by
    dsimp only at hDecode
    split at hDecode
    · cases hDecode
      rfl
    · cases hDecode
  subst hAfter
  obtain ⟨ps, hps⟩ := @eq_text_of_scan .plain _ _ _ _ trivial hScan
  obtain rfl : bytes = text ps ++ after := hps
  refine ⟨ps, rfl, ?_⟩
  have hRead := read_text ps after
  rw [h] at hRead
  obtain ⟨s', hs', hSame⟩ := Option.map_eq_some_iff.mp hRead.symm
  rw [hs', (Prod.mk.inj hSame).1]

end Literal

end EventIngest.Json
