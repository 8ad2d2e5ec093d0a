import EventIngest.Proofs.KnownMembers
/-!
# Texts that hold an event

An event is held by one object, or by one list of at most ten values that fit the fields in order.
Every other text is malformed: another value, a text that is cut off, and one that goes on.
-/
namespace EventIngest

open Json

namespace Json

namespace Document

variable {frame frame' : Frame}

theorem skipBlanks_text (d : Document frame) (rest : List UInt8) :
    skipBlanks (d.text ++ rest) = d.tree.text ++ (d.after.bytes ++ rest) := by
  rw [text, List.append_assoc, skipBlanks_append, tree, Tree.text, List.append_assoc,
    List.cons_append]
  exact skipBlanks_cons (opens_opening frame).notBlank _

theorem ne_text_of_head {bytes more : List UInt8} {b : UInt8} (h : skipBlanks bytes = b :: more)
    (hHead : b ≠ frame.opening) (d : Document frame) : bytes ≠ d.text := by
  rintro rfl
  have hTree := d.skipBlanks_text []
  rw [List.append_nil, h, tree, Tree.text, List.cons_append] at hTree
  exact hHead (List.cons.inj hTree).1

theorem text_ne (d : Document .object) (d' : Document .list) : d.text ≠ d'.text := by
  have hHead := d.skipBlanks_text []
  rw [List.append_nil, tree, Tree.text, List.cons_append] at hHead
  exact ne_text_of_head hHead (by decide) d'

/-- What follows the bracket of a document is determined by the whole text. -/
theorem after_unique {d : Document frame} {d' : Document frame'} {rest rest' : List UInt8}
    (h : d.text ++ rest = d'.text ++ rest') : d.after.bytes ++ rest = d'.after.bytes ++ rest' := by
  have hTrees := congrArg skipBlanks h
  rw [skipBlanks_text, skipBlanks_text] at hTrees
  exact rest_unique hTrees

end Document

namespace Shape

variable {shape : Shape}

/-- The elements are values of the fields in order, as far as they go. -/
structure Fills (shape : Shape) (items : List (Item .list)) : Prop where
  length : items.length ≤ shape.fields.length
  fitting : ∀ pair ∈ shape.fields.zip items, (pair.1.2.value? pair.2.value).isSome

def values (shape : Shape) (items : List (Item .list)) : Members :=
  (shape.fields.zip items).filterMap fun pair =>
    (pair.1.2.value? pair.2.value).map fun value => (pair.1.1, value)

theorem fill?_eq_some (hRequired : shape.required = false) {done result : Members}
    {fields : List (String × Kind)} {items : List (Item .list)} :
    shape.fill? done fields items = some result ↔
      items.length ≤ fields.length ∧
      (∀ pair ∈ fields.zip items, (pair.1.2.value? pair.2.value).isSome) ∧
      done ++ (fields.zip items).filterMap (fun pair =>
        (pair.1.2.value? pair.2.value).map fun value => (pair.1.1, value)) = result := by
  induction fields generalizing done items with
  | nil =>
    cases items with
    | nil => simp [fill?]
    | cons item items => simp [fill?]
  | cons field fields ih =>
    obtain ⟨name, kind⟩ := field
    cases items with
    | nil => simp [fill?, hRequired]
    | cons item items =>
      rw [fill?, List.zip_cons_cons, List.forall_mem_cons, List.filterMap_cons]
      cases hValue : kind.value? item.value with
      | none => simp
      | some value =>
        have hMore := @ih (done ++ [(name, value)]) items
        rw [← List.append_cons] at hMore
        simpa [hValue] using hMore

theorem list?_eq_some (hRequired : shape.required = false) {items : List (Item .list)}
    {members : Members} :
    shape.list? items = some members ↔ shape.Fills items ∧ shape.values items = members := by
  rw [list?, fill?_eq_some hRequired]
  constructor
  · rintro ⟨hLength, hFitting, hMembers⟩
    exact ⟨⟨hLength, hFitting⟩, hMembers⟩
  · rintro ⟨⟨hLength, hFitting⟩, hMembers⟩
    exact ⟨hLength, hFitting, hMembers⟩

end Shape

end Json

namespace Event

theorem decoding_unfilled {d : Document .list} (h : ¬ shape.Fills d.items) :
    decoding d.text = .malformed := by
  have hList : shape.list? d.items = none :=
    Option.eq_none_iff_forall_ne_some.mpr fun members hMembers =>
      h ((Shape.list?_eq_some rfl).mp hMembers).1
  rw [decoding_of_ne_nil (text_ne_nil d), shape.read_list, hList]

theorem decoding_other {bytes : List UInt8} (hBytes : bytes ≠ [])
    (h : ∀ (frame : Frame) (d : Document frame), bytes ≠ d.text) : decoding bytes = .malformed := by
  have hRead : (shape.read bytes).toOption = none := by
    rw [Option.eq_none_iff_forall_ne_some]
    intro members hMembers
    obtain ⟨d, hText⟩ | ⟨d, hText⟩ := Shape.eq_text_of_read (toOption_eq_some.mp hMembers)
    · exact h .object d hText
    · exact h .list d hText
  rw [decoding_of_ne_nil hBytes, hRead]

theorem decoding_scalar {t : Tree} (h : t.IsScalar) (before after : Blanks) :
    decoding (before.bytes ++ (t.text ++ after.bytes)) = .malformed := by
  obtain ⟨b, more, hText, hBegins⟩ := t.text_eq_cons
  apply decoding_other
  · rw [hText]
    exact List.append_ne_nil_of_right_ne_nil _ (List.cons_ne_nil _ _)
  have hHead : skipBlanks (before.bytes ++ (t.text ++ after.bytes))
      = b :: (more ++ after.bytes) := by
    rw [skipBlanks_append, hText, List.cons_append, skipBlanks_cons hBegins.opens.notBlank]
  exact fun frame d => d.ne_text_of_head hHead (hBegins.ne_opening h frame)

theorem decoding_trailing {frame : Frame} (d : Document frame) {rest : List UInt8}
    (h : skipBlanks rest ≠ []) : decoding (d.text ++ rest) = .malformed := by
  apply decoding_other (List.append_ne_nil_of_left_ne_nil (text_ne_nil d) rest)
  intro frame' d' hDocument
  have hAfter := Document.after_unique (hDocument.trans (List.append_nil _).symm)
  have hBlank := congrArg skipBlanks hAfter
  rw [List.append_nil, skipBlanks_append, skipBlanks_blanks] at hBlank
  exact h hBlank

theorem decoding_truncated {frame : Frame} (d : Document frame) {part more : List UInt8}
    (hPart : part ++ more = d.before.bytes ++ d.tree.text) (hMore : more ≠ []) (hSome : part ≠ []) :
    decoding part = .malformed := by
  apply decoding_other hSome
  rintro frame' d' rfl
  have hText : d'.text ++ (more ++ d.after.bytes) = d.text ++ [] := by
    rw [← List.append_assoc, hPart, List.append_nil, Document.text, List.append_assoc]
  have hAfter := congrArg List.length (Document.after_unique hText)
  have hLength := List.length_pos_of_ne_nil hMore
  simp only [List.length_append, List.length_nil] at hAfter
  omega

/-- The bytes are a well-formed message with the values of the event, whatever its timestamp. -/
inductive Carries : List UInt8 → Event → Prop where
  | object (d : Document .object) (accepts : shape.Accepts d.items) :
    Carries d.text (ofMembers (shape.entries d.items))
  | list (d : Document .list) (fills : shape.Fills d.items) :
    Carries d.text (ofMembers (shape.values d.items))

theorem carries_iff {bytes : List UInt8} {e : Event} :
    Carries bytes e ↔ ∃ members, shape.read bytes = .ok members ∧ ofMembers members = e := by
  constructor
  · rintro (⟨d, accepts⟩ | ⟨d, fills⟩)
    · refine ⟨shape.entries d.items, toOption_eq_some.mp ?_, rfl⟩
      rw [shape.read_object, (Shape.object?_eq_some rfl).mpr ⟨accepts, rfl⟩]
    · refine ⟨shape.values d.items, toOption_eq_some.mp ?_, rfl⟩
      rw [shape.read_list, (Shape.list?_eq_some rfl).mpr ⟨fills, rfl⟩]
  · rintro ⟨members, hRead, rfl⟩
    obtain ⟨d, rfl⟩ | ⟨d, rfl⟩ := Shape.eq_text_of_read hRead
    · rw [← toOption_eq_some, shape.read_object, Shape.object?_eq_some rfl] at hRead
      obtain ⟨accepts, rfl⟩ := hRead
      exact .object d accepts
    · rw [← toOption_eq_some, shape.read_list, Shape.list?_eq_some rfl] at hRead
      obtain ⟨fills, rfl⟩ := hRead
      exact .list d fills

theorem Carries.ofBytes_eq {bytes : List UInt8} {e : Event} (h : Carries bytes e) :
    ofBytes bytes = if Calendar.covers e.timestamp then .ok e
      else .error (.timestampOutOfRange e.timestamp) := by
  obtain ⟨members, hRead, rfl⟩ := carries_iff.mp h
  have hBytes : ¬ bytes.isEmpty = true := by
    rw [List.isEmpty_iff]
    rintro rfl
    cases hRead
  rw [ofBytes, if_neg hBytes, hRead]

theorem carries_of_ofBytes {bytes : List UInt8} {e : Event} (h : ofBytes bytes = .ok e) :
    Carries bytes e := by
  rw [ofBytes] at h
  split at h
  · cases h
  split at h
  · cases h
  rename_i members hRead
  dsimp only at h
  split at h
  · exact carries_iff.mpr ⟨members, hRead, Except.ok.inj h⟩
  · cases h

theorem ofBytes_eq_ok {bytes : List UInt8} {e : Event} :
    ofBytes bytes = .ok e ↔ Carries bytes e ∧ Calendar.covers e.timestamp = true := by
  constructor
  · intro h
    exact ⟨carries_of_ofBytes h, (isSound_of_ofBytes h).timestamp⟩
  · rintro ⟨hCarries, hCovers⟩
    rw [hCarries.ofBytes_eq, if_pos hCovers]

/-- Nothing but an object is accepted, unless the text is a list of values in order. -/
theorem only_object_held (bytes : List UInt8) :
    (∀ e, ofBytes bytes = .ok e → ∃ d : Document .object, bytes = d.text) ↔
      ∀ d : Document .list, bytes = d.text → shape.Fills d.items →
        Calendar.covers (ofMembers (shape.values d.items)).timestamp = false := by
  constructor
  · rintro hObjects d rfl hFills
    rw [← Bool.not_eq_true]
    intro hCovers
    obtain ⟨d', hText⟩ := hObjects _ (ofBytes_eq_ok.mpr ⟨.list d hFills, hCovers⟩)
    exact Document.text_ne d' d hText.symm
  · intro hLists e h
    obtain ⟨hCarries, hCovers⟩ := ofBytes_eq_ok.mp h
    obtain ⟨d, -⟩ | ⟨d, hFills⟩ := hCarries
    · exact ⟨d, rfl⟩
    · rw [hLists d rfl hFills] at hCovers
      cases hCovers

/-- The events that a text holds are those of an object whose known members fit, or of a list of
values that fit the fields in order. So nothing but objects is accepted, unless the text is such a
list. A list that does not fit is malformed, and so is a value without parts, a document with
anything but blanks after it, a document that is cut off, and any other text. -/
theorem held_by_object_or_list (bytes : List UInt8) :
    ((∀ e, ofBytes bytes = .ok e → ∃ d : Document .object, bytes = d.text) ↔
      ∀ d : Document .list, bytes = d.text → shape.Fills d.items →
        Calendar.covers (ofMembers (shape.values d.items)).timestamp = false) ∧
    (∀ e, ofBytes bytes = .ok e ↔ Carries bytes e ∧ Calendar.covers e.timestamp = true) ∧
    (∀ d : Document .list, bytes = d.text → ¬ shape.Fills d.items → decoding bytes = .malformed) ∧
    (∀ (t : Tree) (before after : Blanks), t.IsScalar →
      bytes = before.bytes ++ (t.text ++ after.bytes) → decoding bytes = .malformed) ∧
    (∀ (frame : Frame) (d : Document frame) (rest : List UInt8), skipBlanks rest ≠ [] →
      bytes = d.text ++ rest → decoding bytes = .malformed) ∧
    (∀ (frame : Frame) (d : Document frame) (more : List UInt8), more ≠ [] → bytes ≠ [] →
      bytes ++ more = d.before.bytes ++ d.tree.text → decoding bytes = .malformed) ∧
    (bytes ≠ [] → (∀ (frame : Frame) (d : Document frame), bytes ≠ d.text) →
      decoding bytes = .malformed) := by
  refine ⟨only_object_held bytes, fun e => ofBytes_eq_ok, ?_, ?_, ?_, ?_, decoding_other⟩
  · rintro d rfl hFills
    exact decoding_unfilled hFills
  · rintro t before after hScalar rfl
    exact decoding_scalar hScalar before after
  · rintro frame d rest hRest rfl
    exact decoding_trailing d hRest
  · intro frame d more hMore hSome hPart
    exact decoding_truncated d hPart hMore hSome

/-- The list `["a",-1]`. -/
def agentAndMoment : Document .list :=
  ⟨.none, [⟨.element .none, .literal (plain "a"), .none⟩,
    ⟨.element .none, minusOne, .none⟩], .none, .none⟩

/-- The list `[-1]`, whose element is no text. -/
def loneNumber : Document .list :=
  ⟨.none, [⟨.element .none, minusOne, .none⟩], .none, .none⟩

theorem list_of_values_holds_event :
    (Carries agentAndMoment.text { agentId := "a", timestamp := -1 } ∧
      ofBytes agentAndMoment.text = .ok { agentId := "a", timestamp := -1 } ∧
      ¬ ∀ e, ofBytes agentAndMoment.text = .ok e →
        ∃ d : Document .object, agentAndMoment.text = d.text) ∧
    decoding loneNumber.text = .malformed ∧ decoding [0x20, 0x2D, 0x31] = .malformed ∧
    decoding (brief.text ++ [0x0A, 0x78]) = .malformed ∧
    decoding [0x7B, 0x22, 0x74] = .malformed ∧ decoding [0x78] = .malformed := by
  have hCarries : Carries agentAndMoment.text { agentId := "a", timestamp := -1 } :=
    .list agentAndMoment ⟨by decide, by decide⟩
  have hNumber : ¬ shape.Fills loneNumber.items := fun h => absurd h.fitting (by decide)
  have hOther (frame : Frame) (d : Document frame) : [0x78] ≠ d.text := by
    cases frame with
    | list => exact @Document.ne_text_of_head .list _ [] 0x78 rfl (by decide) d
    | object => exact @Document.ne_text_of_head .object _ [] 0x78 rfl (by decide) d
  refine ⟨⟨hCarries, ((held_by_object_or_list _).2.1 _).mpr ⟨hCarries, by decide⟩,
      fun hObjects => ?_⟩,
    (held_by_object_or_list _).2.2.1 loneNumber rfl hNumber,
    (held_by_object_or_list _).2.2.2.1 minusOne space .none trivial rfl,
    (held_by_object_or_list _).2.2.2.2.1 .object brief [0x0A, 0x78] (by decide) rfl,
    (held_by_object_or_list _).2.2.2.2.2.1 .object brief (brief.text.drop 3) (by decide) (by decide)
      rfl,
    (held_by_object_or_list _).2.2.2.2.2.2 (by decide) hOther⟩
  have hBeyond := (held_by_object_or_list _).1.mp hObjects agentAndMoment rfl
    ⟨by decide, by decide⟩
  cases hBeyond

theorem brackets_hold_event :
    ofBytes [0x5B, 0x5D] = .ok {} ∧ ∀ d : Document .object, [0x5B, 0x5D] ≠ d.text := by
  constructor
  · rfl
  · intro d
    exact @Document.ne_text_of_head .object _ [0x5D] 0x5B rfl (by decide) d

end Event

end EventIngest
