import EventIngest.Proofs.JsonNumerals
/-!
# Values that are stepped over

Stepping over a value accepts exactly the trees of the grammar, whatever their depth. So a bracket
of one tree never ends before that of another that begins the same way.
-/
namespace EventIngest.Json

open Number (Ends)

section Blank

theorem skipBlanks_append (w : Blanks) (text : List UInt8) :
    skipBlanks (w.bytes ++ text) = skipBlanks text := List.dropWhile_append_of_pos w.blank

theorem skipBlanks_blanks (w : Blanks) : skipBlanks w.bytes = [] :=
  List.dropWhile_eq_nil_iff.mpr w.blank

theorem exists_blanks (text : List UInt8) : ∃ w : Blanks, text = w.bytes ++ skipBlanks text :=
  ⟨⟨text.takeWhile isBlank, fun _ hb => List.mem_takeWhile_imp hb⟩,
    List.takeWhile_append_dropWhile.symm⟩

theorem exists_blanks_cons {text rest : List UInt8} {b : UInt8} (h : skipBlanks text = b :: rest) :
    ∃ w : Blanks, text = w.bytes ++ b :: rest := by
  obtain ⟨w, hText⟩ := exists_blanks text
  rw [h] at hText
  exact ⟨w, hText⟩

def Blanks.append (w w' : Blanks) : Blanks :=
  ⟨w.bytes ++ w'.bytes, List.forall_mem_append.mpr ⟨w.blank, w'.blank⟩⟩

theorem blank_cases {b : UInt8} (h : isBlank b = true) :
    b = 0x20 ∨ b = 0x0A ∨ b = 0x09 ∨ b = 0x0D := by
  rwa [isBlank, decide_eq_true_eq] at h

theorem ends_of_blank {b : UInt8} (h : isBlank b = true) (rest : List UInt8) :
    Ends (b :: rest) := by
  intro b' more hText
  obtain ⟨rfl, -⟩ := List.cons.inj hText
  rcases blank_cases h with rfl | rfl | rfl | rfl <;> decide

theorem ends_blanks (w : Blanks) {rest : List UInt8} (h : Ends rest) : Ends (w.bytes ++ rest) := by
  obtain ⟨bytes, hBlank⟩ := w
  cases bytes with
  | nil => exact h
  | cons b bytes => exact ends_of_blank (hBlank b List.mem_cons_self) _

theorem ends_comma (rest : List UInt8) : Ends (comma :: rest) := by
  intro b more hText
  obtain ⟨rfl, -⟩ := List.cons.inj hText
  decide

theorem ends_close (frame : Frame) (rest : List UInt8) : Ends (frame.close :: rest) := by
  intro b more hText
  obtain ⟨rfl, -⟩ := List.cons.inj hText
  cases frame <;> decide

theorem ends_items {frame : Frame} (items : Items frame) (w : Blanks) (rest : List UInt8) :
    Ends (w.bytes ++ (items.text false ++ rest)) := by
  apply ends_blanks
  cases items with
  | nil inner =>
    rw [Items.text, List.append_assoc]
    exact ends_blanks inner (ends_close frame rest)
  | cons lead value after more => exact ends_comma _

end Blank

section Heads

structure Opens (b : UInt8) : Prop where
  notBlank : isBlank b = false
  notClose : ∀ frame : Frame, b ≠ frame.close

theorem opens_quote : Opens Literal.quote := ⟨by decide, by rintro (_ | _) <;> decide⟩

theorem opens_opening (frame : Frame) : Opens frame.opening := by
  constructor
  · cases frame <;> decide
  · rintro (_ | _) <;> cases frame <;> decide

theorem opens_number {b : UInt8} (h : Number.begins b = true) : Opens b := by
  constructor
  · rw [← Bool.not_eq_true]
    intro hBlank
    rcases blank_cases hBlank with rfl | rfl | rfl | rfl <;> cases h
  · rintro (_ | _) rfl <;> cases h

theorem Numeral.text_eq_cons (n : Numeral) :
    ∃ b more, n.text = b :: more ∧ Number.begins b = true := by
  rw [Numeral.text]
  cases n.negative with
  | true => exact ⟨_, _, rfl, by decide⟩
  | false =>
    obtain ⟨b, more, hBytes, hDigit⟩ := n.whole.eq_cons
    exact ⟨b, _, by rw [hBytes]; rfl, by rw [Number.begins, hDigit, Bool.true_or]⟩

def Tree.IsScalar : Tree → Prop
  | .bracket _ _ => False
  | _ => True

/-- What is known of the first byte of a tree's text. -/
def Tree.Begins : Tree → UInt8 → Prop
  | .word _ _ _, b => b = 0x6E ∨ b = 0x74 ∨ b = 0x66
  | .number _, b => Number.begins b = true
  | .literal _, b => b = Literal.quote
  | .bracket frame _, b => b = frame.opening

theorem word_cases {b : UInt8} {after : List UInt8} (h : wordAfter b = some after) :
    b = 0x6E ∨ b = 0x74 ∨ b = 0x66 := by
  unfold wordAfter at h
  grind

theorem Tree.text_eq_cons (t : Tree) : ∃ b more, t.text = b :: more ∧ t.Begins b := by
  cases t with
  | word b after h => exact ⟨b, after, by rw [Tree.text], word_cases h⟩
  | number n =>
    obtain ⟨b, more, hText, hBegins⟩ := n.text_eq_cons
    exact ⟨b, more, by rw [Tree.text, hText], hBegins⟩
  | literal ps => exact ⟨_, _, by rw [Tree.text], rfl⟩
  | bracket frame items => exact ⟨_, _, by rw [Tree.text], rfl⟩

namespace Tree.Begins

variable {t : Tree} {b : UInt8}

theorem opens (h : t.Begins b) : Opens b := by
  cases t with
  | word first after hWord =>
    rcases h with rfl | rfl | rfl <;> exact ⟨by decide, by rintro (_ | _) <;> decide⟩
  | number n => exact opens_number h
  | literal ps => exact h ▸ opens_quote
  | bracket frame items => exact h ▸ opens_opening frame

theorem ne_quote (h : t.Begins b) (hOther : ∀ ps, t ≠ .literal ps) : b ≠ Literal.quote := by
  rintro rfl
  cases t with
  | word first after hWord => rcases h with h | h | h <;> cases h
  | number n => cases h
  | literal ps => exact hOther ps rfl
  | bracket frame items => cases frame <;> cases h

theorem not_begins (h : t.Begins b) (hOther : ∀ n, t ≠ .number n) :
    ¬ Number.begins b = true := by
  cases t with
  | word first after hWord => rcases h with rfl | rfl | rfl <;> decide
  | number n => exact absurd rfl (hOther n)
  | literal ps =>
    obtain rfl : b = Literal.quote := h
    decide
  | bracket frame items =>
    obtain rfl : b = frame.opening := h
    cases frame <;> decide

theorem ne_opening (h : t.Begins b) (hScalar : t.IsScalar) (frame : Frame) :
    b ≠ frame.opening := by
  rintro rfl
  cases t with
  | word first after hWord => rcases h with h | h | h <;> cases frame <;> cases h
  | number n => cases frame <;> cases h
  | literal ps => cases frame <;> cases h
  | bracket frame items => exact hScalar.elim

end Tree.Begins

end Heads

section Scalars

theorem readWord_append (word rest : List UInt8) : readWord word (word ++ rest) = .ok rest := by
  induction word with
  | nil => rfl
  | cons w word ih => rw [List.cons_append, readWord, if_pos rfl, ih]

theorem eq_append_of_readWord {word text rest : List UInt8} (h : readWord word text = .ok rest) :
    text = word ++ rest := by
  induction word generalizing text with
  | nil =>
    cases h
    rfl
  | cons w word ih =>
    cases text with
    | nil => cases h
    | cons b text =>
      rw [readWord] at h
      split at h
      · subst b
        rw [ih h, List.cons_append]
      · cases h

theorem skipScalar_text {t : Tree} (h : t.IsScalar) {rest : List UInt8} (hRest : Ends rest) :
    skipScalar (t.text ++ rest) = .ok rest := by
  cases t with
  | word b after hWord =>
    have hPlain : b ≠ Literal.quote ∧ ¬ Number.begins b = true := by
      rcases word_cases hWord with rfl | rfl | rfl <;> decide
    rw [Tree.text, List.cons_append, skipScalar, if_neg hPlain.1, if_neg hPlain.2, hWord]
    exact readWord_append after rest
  | number n =>
    obtain ⟨b, more, hText, hBegins⟩ := n.text_eq_cons
    have hSkip := n.skip_text hRest
    have hQuote : b ≠ Literal.quote := by
      rintro rfl
      cases hBegins
    rw [Tree.text]
    rw [hText, List.cons_append] at hSkip ⊢
    rw [skipScalar, if_neg hQuote, if_pos hBegins, hSkip]
  | literal ps =>
    rw [Tree.text, List.cons_append, skipScalar, if_pos rfl]
    exact Literal.skip_text ps rest
  | bracket frame items => exact h.elim

theorem eq_text_of_skipScalar {text rest : List UInt8} (h : skipScalar text = .ok rest) :
    ∃ t : Tree, text = t.text ++ rest := by
  rw [skipScalar.eq_def] at h
  split at h
  · cases h
  · split at h
    · obtain ⟨ps, rfl⟩ := Literal.eq_text_of_skip h
      subst_vars
      exact ⟨.literal ps, by rw [Tree.text]; rfl⟩
    · split at h
      · obtain ⟨n, hn⟩ := Number.eq_text_of_skip h
        exact ⟨.number n, by rw [Tree.text, hn]⟩
      · split at h
        · rename_i b after _ _ _ word hWord
          obtain rfl := eq_append_of_readWord h
          exact ⟨.word b word hWord, by rw [Tree.text, List.cons_append]⟩
        · cases h

end Scalars

section Places

mutual

/-- The places visited while a value is stepped over. -/
def Tree.places : Tree → Nat
  | .bracket _ items => items.places + 1
  | _ => 1

def Items.places : {frame : Frame} → Items frame → Nat
  | _, .nil _ => 1
  | _, .cons _ value _ more => value.places + more.places + 1

end

theorem Tree.IsScalar.places {t : Tree} (h : t.IsScalar) : t.places = 1 := by
  cases t with
  | bracket frame items => exact h.elim
  | _ => simp only [Tree.places]

theorem Tree.IsScalar.places_lt {t : Tree} (h : t.IsScalar) : t.places < 2 * t.text.length := by
  obtain ⟨b, more, hText, -⟩ := t.text_eq_cons
  rw [h.places, hText, List.length_cons]
  omega

mutual

theorem Tree.places_lt (t : Tree) : t.places < 2 * t.text.length := by
  match t with
  | .word _ _ _ => exact Tree.IsScalar.places_lt trivial
  | .number _ => exact Tree.IsScalar.places_lt trivial
  | .literal _ => exact Tree.IsScalar.places_lt trivial
  | .bracket frame items =>
    have hItems := items.places_lt true
    rw [Tree.places, Tree.text, List.length_cons]
    omega

theorem Items.places_lt {frame : Frame} (items : Items frame) (first : Bool) :
    items.places < 2 * (items.text first).length := by
  match items with
  | .nil inner =>
    rw [Items.places, Items.text, List.length_append, List.length_singleton]
    omega
  | .cons lead value after more =>
    have hValue := value.places_lt
    have hMore := more.places_lt false
    simp only [Items.places, Items.text, List.length_append]
    omega

end

end Places

section Completed

variable {frame : Frame} {frames : List Frame} {fuel : Nat} {rest : List UInt8}

theorem skipFrom_scalar {t : Tree} (h : t.IsScalar) (w : Blanks) (hRest : Ends rest) :
    skipFrom (t.places + fuel) .value frames (w.bytes ++ (t.text ++ rest))
      = skipFrom fuel .closed frames rest := by
  obtain ⟨b, more, hText, hBegins⟩ := t.text_eq_cons
  have hSkip := skipScalar_text h hRest
  have hList : b ≠ openList := hBegins.ne_opening h .list
  have hObject : b ≠ openObject := hBegins.ne_opening h .object
  rw [hText, List.cons_append] at *
  rw [h.places, Nat.add_comm, skipFrom, skipBlanks_append, skipBlanks_cons hBegins.opens.notBlank]
  simp only [if_neg hList, if_neg hObject, hSkip]
  rfl

theorem skipFrom_bracket (w : Blanks) :
    skipFrom (fuel + 1) .value frames (w.bytes ++ frame.opening :: rest)
      = skipFrom fuel .opened (frame :: frames) rest := by
  rw [skipFrom, skipBlanks_append, skipBlanks_cons (opens_opening frame).notBlank]
  cases frame <;> rfl

theorem skipFrom_close {place : Place} (hPlace : place ≠ .value) (w : Blanks) :
    skipFrom (fuel + 1) place (frame :: frames) (w.bytes ++ frame.close :: rest)
      = skipFrom fuel .closed frames rest := by
  have hBlank : isBlank frame.close = false := by cases frame <;> decide
  rw [skipFrom, skipBlanks_append, skipBlanks_cons hBlank]
  · simp only [if_true]
  · exact hPlace

theorem skipKey_member (before between : Blanks) (key : List Literal.Piece) (text : List UInt8) :
    skipKey (before.bytes
      ++ Literal.quote :: (Literal.text key ++ (between.bytes ++ colon :: text))) = .ok text := by
  rw [skipKey, skipBlanks_append, skipBlanks_cons (by decide)]
  simp only [if_true, bind, Except.bind, Literal.skip_text]
  rw [skipBlanks_append, skipBlanks_cons (by decide)]
  rfl

theorem skipToValue_lead (lead : Lead frame) (t : Tree) (rest : List UInt8) :
    ∃ w : Blanks, skipToValue frame (lead.text ++ (t.text ++ rest))
      = .ok (w.bytes ++ (t.text ++ rest)) := by
  cases lead with
  | element before => exact ⟨before, rfl⟩
  | member before key between after =>
    have hKey := skipKey_member before between key (after.bytes ++ (t.text ++ rest))
    refine ⟨after, ?_⟩
    rw [Lead.text, skipToValue]
    simpa only [List.append_assoc, List.cons_append] using hKey

theorem skipToValue_opened (lead : Lead frame) (t : Tree) (rest : List UInt8) :
    ∃ b more, skipBlanks (lead.text ++ (t.text ++ rest)) = b :: more ∧ Opens b ∧
      ∃ w : Blanks, skipToValue frame (b :: more) = .ok (w.bytes ++ (t.text ++ rest)) := by
  cases lead with
  | element before =>
    obtain ⟨b, more, hText, hBegins⟩ := t.text_eq_cons
    refine ⟨b, more ++ rest, ?_, hBegins.opens, .none, by rw [hText]; rfl⟩
    rw [Lead.text, skipBlanks_append, hText, List.cons_append, skipBlanks_cons hBegins.opens.notBlank]
  | member before key between after =>
    have hKey := skipKey_member .none between key (after.bytes ++ (t.text ++ rest))
    refine ⟨_, _, ?_, opens_quote, after, hKey⟩
    rw [Lead.text, List.append_assoc, skipBlanks_append, List.cons_append,
      skipBlanks_cons (by decide)]
    simp only [List.append_assoc, List.cons_append]

theorem skipFrom_lead (lead : Lead frame) (first : Bool) (w : Blanks) (t : Tree) :
    ∃ w' : Blanks,
      skipFrom (fuel + 1) (if first then .opened else .closed) (frame :: frames)
        (w.bytes ++ ((if first then [] else [comma]) ++ (lead.text ++ (t.text ++ rest))))
        = skipFrom fuel .value (frame :: frames) (w'.bytes ++ (t.text ++ rest)) := by
  cases first with
  | true =>
    obtain ⟨b, more, hHead, hOpens, w', hLead⟩ := skipToValue_opened lead t rest
    refine ⟨w', ?_⟩
    simp only [if_true, List.nil_append]
    rw [skipFrom, skipBlanks_append, hHead]
    · simp only [if_neg (hOpens.notClose frame), hLead]
      rfl
    · exact nofun
  | false =>
    obtain ⟨w', hLead⟩ := skipToValue_lead lead t rest
    have hComma : comma ≠ frame.close := by cases frame <;> decide
    refine ⟨w', ?_⟩
    simp only [Bool.false_eq_true, if_false, List.singleton_append]
    rw [skipFrom, skipBlanks_append, skipBlanks_cons (by decide)]
    · simp only [if_neg hComma, if_true, hLead]
      rfl
    · exact nofun

mutual

theorem skipFrom_tree (t : Tree) (fuel : Nat) (frames : List Frame) (w : Blanks)
    {rest : List UInt8} (hRest : t.IsScalar → Ends rest) :
    skipFrom (t.places + fuel) .value frames (w.bytes ++ (t.text ++ rest))
      = skipFrom fuel .closed frames rest := by
  match t with
  | .word b after h =>
    exact @skipFrom_scalar frames fuel rest (.word b after h) trivial w (hRest trivial)
  | .number n =>
    exact @skipFrom_scalar frames fuel rest (.number n) trivial w (hRest trivial)
  | .literal ps =>
    exact @skipFrom_scalar frames fuel rest (.literal ps) trivial w (hRest trivial)
  | .bracket frame items =>
    have hItems := skipFrom_items items true fuel frames .none rest
    rw [Tree.places, Nat.add_right_comm, Tree.text, List.cons_append, skipFrom_bracket]
    exact hItems

theorem skipFrom_items {frame : Frame} (items : Items frame) (first : Bool) (fuel : Nat)
    (frames : List Frame) (w : Blanks) (rest : List UInt8) :
    skipFrom (items.places + fuel) (if first then .opened else .closed) (frame :: frames)
      (w.bytes ++ (items.text first ++ rest)) = skipFrom fuel .closed frames rest := by
  match items with
  | .nil inner =>
    rw [Items.places, Nat.add_comm, Items.text, List.append_assoc, ← List.append_assoc]
    exact skipFrom_close (by cases first <;> decide) (w.append inner)
  | .cons lead value after more =>
    simp only [Items.places, Items.text, List.append_assoc]
    obtain ⟨w', hLead⟩ := @skipFrom_lead frame frames (value.places + (more.places + fuel))
      (after.bytes ++ (more.text false ++ rest)) lead first w value
    rw [show value.places + more.places + 1 + fuel
      = value.places + (more.places + fuel) + 1 by omega, hLead]
    rw [skipFrom_tree value _ _ w' fun _ => ends_items more after rest]
    exact skipFrom_items more false fuel frames after rest

end

theorem skipValue_tree {t : Tree} {bound : Nat} (hBound : t.text.length < bound) (w : Blanks)
    (hRest : t.IsScalar → Ends rest) :
    skipValue bound (w.bytes ++ (t.text ++ rest)) = .ok rest := by
  have hPlaces := t.places_lt
  obtain ⟨spare, hSpare⟩ : ∃ spare, 2 * bound = t.places + (spare + 1) :=
    ⟨2 * bound - t.places - 1, by omega⟩
  rw [skipValue, hSpare, skipFrom_tree t _ _ w hRest]
  rfl

/-- Where the bracket of a tree closes does not depend on what follows. -/
theorem rest_unique {frame frame' : Frame} {items : Items frame} {items' : Items frame'}
    {rest rest' : List UInt8}
    (h : (Tree.bracket frame items).text ++ rest = (Tree.bracket frame' items').text ++ rest') :
    rest = rest' := by
  have hLeft := @skipValue_tree rest (.bracket frame items)
    ((Tree.bracket frame items).text.length + (Tree.bracket frame' items').text.length + 1)
    (by omega) .none False.elim
  have hRight := @skipValue_tree rest' (.bracket frame' items')
    ((Tree.bracket frame items).text.length + (Tree.bracket frame' items').text.length + 1)
    (by omega) .none False.elim
  rw [h, hRight] at hLeft
  exact (Except.ok.inj hLeft).symm

end Completed

section Sound

/-- The text closes the open brackets one after another, and then the rest follows. -/
def Closes : List Frame → List UInt8 → List UInt8 → Prop
  | [], text, rest => text = rest
  | frame :: frames, text, rest =>
    ∃ (after : Blanks) (items : Items frame) (more : List UInt8),
      text = after.bytes ++ (items.text false ++ more) ∧ Closes frames more rest

/-- What stands in a text that is stepped over from the place on. -/
def Place.Reads : Place → List Frame → List UInt8 → List UInt8 → Prop
  | .value, frames, text, rest =>
    ∃ (w : Blanks) (t : Tree) (more : List UInt8),
      text = w.bytes ++ (t.text ++ more) ∧ Closes frames more rest
  | .opened, frame :: frames, text, rest =>
    ∃ (items : Items frame) (more : List UInt8), text = items.text true ++ more ∧
      Closes frames more rest
  | .opened, [], text, rest => text = rest
  | .closed, frames, text, rest => Closes frames text rest

theorem eq_colon_of_read {text rest : List UInt8} (h : readColon text = .ok rest) :
    ∃ w : Blanks, text = w.bytes ++ colon :: rest := by
  rw [readColon] at h
  split at h
  · cases h
  rename_i b after hAfter
  obtain ⟨w, rfl⟩ := exists_blanks_cons hAfter
  split at h
  · subst b
    cases h
    exact ⟨w, rfl⟩
  · cases h

theorem eq_lead_of_skipToValue {frame : Frame} {text rest : List UInt8} {w : Blanks}
    (h : skipToValue frame text = .ok (w.bytes ++ rest)) :
    ∃ lead : Lead frame, text = lead.text ++ rest := by
  cases frame with
  | list =>
    cases h
    exact ⟨.element w, rfl⟩
  | object =>
    rw [skipToValue, skipKey] at h
    split at h
    · cases h
    rename_i b opened hOpened
    obtain ⟨before, rfl⟩ := exists_blanks_cons hOpened
    split at h
    · subst b
      obtain ⟨afterKey, hKey, hColon⟩ := bind_eq_ok.mp h
      obtain ⟨key, rfl⟩ := Literal.eq_text_of_skip hKey
      obtain ⟨between, rfl⟩ := eq_colon_of_read hColon
      exact ⟨.member before key between w, by simp [Lead.text]⟩
    · cases h

theorem Lead.exists_widened {frame : Frame} (lead : Lead frame) (w : Blanks) :
    ∃ lead' : Lead frame, lead'.text = w.bytes ++ lead.text := by
  cases lead with
  | element before => exact ⟨.element (w.append before), rfl⟩
  | member before key between after =>
    exact ⟨.member (w.append before) key between after, List.append_assoc _ _ _⟩

/-- An item and the ones after it, where its lead begins. -/
theorem exists_items {frame : Frame} {frames : List Frame} {text opened rest : List UInt8}
    (hLead : skipToValue frame text = .ok opened)
    (hValue : Place.Reads .value (frame :: frames) opened rest) :
    ∃ (lead : Lead frame) (value : Tree) (after : Blanks) (items : Items frame)
      (more : List UInt8),
      text = lead.text ++ (value.text ++ (after.bytes ++ (items.text false ++ more))) ∧
        Closes frames more rest := by
  obtain ⟨w, value, _, rfl, after, items, more, rfl, hCloses⟩ := hValue
  obtain ⟨lead, rfl⟩ := eq_lead_of_skipToValue hLead
  exact ⟨lead, value, after, items, more, rfl, hCloses⟩

theorem reads_of_skipFrom {fuel : Nat} {place : Place} {frames : List Frame}
    {text rest : List UInt8} (h : skipFrom fuel place frames text = .ok rest) :
    place.Reads frames text rest := by
  induction fuel generalizing place frames text with
  | zero => cases h
  | succ fuel ih =>
    cases place with
    | value =>
      rw [skipFrom] at h
      split at h
      · cases h
      rename_i b opened hOpened
      obtain ⟨w, rfl⟩ := exists_blanks_cons hOpened
      split at h
      · subst b
        obtain ⟨items, more, rfl, hCloses⟩ := ih h
        exact ⟨w, .bracket .list items, more, by rw [Tree.text]; rfl, hCloses⟩
      split at h
      · subst b
        obtain ⟨items, more, rfl, hCloses⟩ := ih h
        exact ⟨w, .bracket .object items, more, by rw [Tree.text]; rfl, hCloses⟩
      · obtain ⟨more, hScalar, h⟩ := bind_eq_ok.mp h
        obtain ⟨t, hText⟩ := eq_text_of_skipScalar hScalar
        exact ⟨w, t, more, by rw [hText], ih h⟩
    | opened =>
      obtain _ | ⟨frame, frames⟩ := frames
      · cases h
        rfl
      rw [skipFrom] at h
      split at h
      · cases h
      rename_i b opened hOpened
      obtain ⟨w, rfl⟩ := exists_blanks_cons hOpened
      split at h
      · subst b
        exact ⟨.nil w, opened, by rw [Items.text, List.append_assoc]; rfl, ih h⟩
      · obtain ⟨next, hLead, h⟩ := bind_eq_ok.mp h
        obtain ⟨lead, value, after, items, more, hText, hCloses⟩ := exists_items hLead (ih h)
        obtain ⟨lead', hWidened⟩ := lead.exists_widened w
        exact ⟨.cons lead' value after items, more, by simp [hText, Items.text, hWidened], hCloses⟩
      · exact nofun
    | closed =>
      obtain _ | ⟨frame, frames⟩ := frames
      · cases h
        rfl
      rw [skipFrom] at h
      split at h
      · cases h
      rename_i b opened hOpened
      obtain ⟨w, rfl⟩ := exists_blanks_cons hOpened
      split at h
      · subst b
        exact ⟨w, .nil .none, opened, by rw [Items.text]; rfl, ih h⟩
      dsimp only at h
      split at h
      · subst b
        obtain ⟨next, hLead, h⟩ := bind_eq_ok.mp h
        obtain ⟨lead, value, after, items, more, hText, hCloses⟩ := exists_items hLead (ih h)
        exact ⟨w, .cons lead value after items, more, by simp [hText, Items.text], hCloses⟩
      · cases h
      · exact nofun

theorem eq_text_of_skipValue {bound : Nat} {text rest : List UInt8}
    (h : skipValue bound text = .ok rest) :
    ∃ (w : Blanks) (t : Tree), text = w.bytes ++ (t.text ++ rest) := by
  obtain ⟨w, t, more, hText, rfl⟩ := reads_of_skipFrom h
  exact ⟨w, t, hText⟩

end Sound

end EventIngest.Json
