import EventIngest.Proofs.EventWire
import EventIngest.Proofs.JsonDocuments
import Mathlib.Data.List.Forall2
import Mathlib.Logic.Relation
/-!
# Events depend on their known members alone

What an object is decoded as follows from the values of its known members, in whatever order, with
whatever blanks and escapes they are written, and whatever other members stand among them. A value
that is absent is as good as the default written out. No known member may occur twice.
-/
namespace EventIngest

open Json

namespace Json

def Kind.default : Kind → Scalar
  | .text => .text ""
  | .whole _ => .whole 0

theorem Kind.value?_alike (kind : Kind) {t t' : Tree} (h : Tree.Alike t t') :
    kind.value? t = kind.value? t' := by
  cases h with
  | refl => rfl
  | bracket hItems => cases kind <;> rfl

namespace Shape

variable {shape : Shape}

def entries (shape : Shape) (items : List Member) : Members :=
  items.filterMap fun m => (shape.added? m).join

/-- Every known member has a value of its field, none occurs twice, and all keys are texts. -/
structure Accepts (shape : Shape) (items : List Member) : Prop where
  fitting : ∀ m ∈ items, (shape.added? m).isSome
  distinct : ((shape.entries items).map Prod.fst).Nodup

theorem entries_cons {m : Member} {entry : Option (String × Scalar)}
    (h : shape.added? m = some entry) (items : List Member) :
    shape.entries (m :: items) = entry.toList ++ shape.entries items := by
  rw [entries, List.filterMap_cons, h]
  cases entry with
  | none => rfl
  | some entry => rfl

theorem entries_append (items items' : List Member) :
    shape.entries (items ++ items') = shape.entries items ++ shape.entries items' :=
  List.filterMap_append

theorem foldlM_take? {done result : Members} {items : List Member}
    (hDone : (done.map Prod.fst).Nodup) :
    items.foldlM shape.take? done = some result ↔
      (∀ m ∈ items, (shape.added? m).isSome) ∧
      ((done ++ shape.entries items).map Prod.fst).Nodup ∧
      done ++ shape.entries items = result := by
  -- Each value is added to `done`, where no later one may have the same key.
  induction items generalizing done with
  | nil => simp [entries, hDone]
  | cons m items ih =>
    rw [List.foldlM_cons, take?, List.forall_mem_cons]
    cases hAdded : shape.added? m with
    | none => simp
    | some entry =>
      rw [entries_cons hAdded]
      cases entry with
      | none => simpa [Members.add?] using ih hDone
      | some entry =>
        simp only [Option.bind_some, Option.toList_some, Option.isSome_some, true_and,
          List.singleton_append, Members.add?]
        by_cases hNew : entry.1 ∈ done.map Prod.fst
        · rw [if_pos (Option.isSome_iff_ne_none.mpr (mt lookup_eq_none.mp (not_not.mpr hNew)))]
          constructor
          · intro h
            cases h
          · rintro ⟨-, hDistinct, -⟩
            rw [List.map_append] at hDistinct
            exact absurd hNew (notMem_before hDistinct)
        · have hGrown : ((done ++ [entry]).map Prod.fst).Nodup := by
            rw [List.map_append, List.map_singleton, List.nodup_append_comm]
            exact List.nodup_cons.mpr ⟨hNew, hDone⟩
          have hRest := ih hGrown
          rw [← List.append_cons] at hRest
          rw [lookup_eq_none.mpr hNew]
          exact hRest

theorem object?_eq_some (hRequired : shape.required = false) {items : List Member}
    {members : Members} :
    shape.object? items = some members ↔ shape.Accepts items ∧ shape.entries items = members := by
  have hMissing (members : Members) : (shape.missing members).isEmpty = true := by
    rw [missing, hRequired]
    rfl
  rw [object?, Option.filter_eq_some_iff]
  rw [@foldlM_take? shape [] members items List.nodup_nil]
  simp only [hMissing, and_true, List.nil_append]
  constructor
  · rintro ⟨hFitting, hDistinct, hMembers⟩
    exact ⟨⟨hFitting, hDistinct⟩, hMembers⟩
  · rintro ⟨⟨hFitting, hDistinct⟩, hMembers⟩
    exact ⟨hFitting, hDistinct, hMembers⟩

theorem added?_unknown {m : Member} {key : String} (hKey : Literal.content? m.key = some key)
    (hUnknown : key ∉ shape.fields.map Prod.fst) : shape.added? m = some none := by
  rw [added?, hKey, Option.bind_some, addedUnder?, kind?, lookup_eq_none.mpr hUnknown]

theorem added?_known (hPlain : shape.IsPlain) {m : Member} {key : String} {kind : Kind}
    (hKey : Literal.content? m.key = some key) (hKnown : (key, kind) ∈ shape.fields) :
    shape.added? m = (kind.value? m.value).map fun value => some (key, value) := by
  rw [added?, hKey, Option.bind_some, addedUnder?, kind?, lookup_of_mem hPlain.distinct hKnown]

theorem key_of_added? {m : Member} {entry : String × Scalar}
    (h : shape.added? m = some (some entry)) : Literal.content? m.key = some entry.1 := by
  rw [added?] at h
  obtain ⟨key, hKey, h⟩ := Option.bind_eq_some_iff.mp h
  rw [addedUnder?] at h
  split at h
  · obtain ⟨value, -, hAdded⟩ := Option.map_eq_some_iff.mp h
    rw [hKey, ← Option.some.inj hAdded]
  · cases h

theorem key_of_mem_entries {key : String} {items : List Member}
    (h : key ∈ (shape.entries items).map Prod.fst) :
    ∃ m ∈ items, Literal.content? m.key = some key := by
  obtain ⟨entry, hAdded, rfl⟩ := List.mem_map.mp h
  obtain ⟨m, hm, hJoin⟩ := List.mem_filterMap.mp hAdded
  exact ⟨m, hm, key_of_added? (Option.join_eq_some_iff.mp hJoin)⟩

theorem entries_insert {m : Member} {entry : Option (String × Scalar)}
    (h : shape.added? m = some entry) (xs ys : List Member) :
    shape.entries (xs ++ m :: ys) = shape.entries xs ++ (entry.toList ++ shape.entries ys) := by
  rw [entries_append, entries_cons h]

/-- Where all members are fitting, a field has as many values as there are members with its name. -/
theorem countP_key {key : String} (hKnown : key ∈ shape.fields.map Prod.fst) {items : List Member}
    (hFitting : ∀ m ∈ items, (shape.added? m).isSome) :
    items.countP (fun m => Literal.content? m.key = some key)
      = ((shape.entries items).map Prod.fst).count key := by
  induction items with
  | nil => rfl
  | cons m items ih =>
    obtain ⟨hFits, hOthers⟩ := List.forall_mem_cons.mp hFitting
    obtain ⟨entry, hAdded⟩ := Option.isSome_iff_exists.mp hFits
    rw [List.countP_cons, ih hOthers, entries_cons hAdded]
    cases entry with
    | none =>
      have hOther : Literal.content? m.key ≠ some key := by
        intro hKey
        rw [added?, hKey, Option.bind_some, addedUnder?] at hAdded
        split at hAdded
        · obtain ⟨value, -, hValue⟩ := Option.map_eq_some_iff.mp hAdded
          cases hValue
        · rename_i hKind
          exact absurd hKnown (lookup_eq_none.mp hKind)
      simp [hOther]
    | some entry => simp [key_of_added? hAdded, List.count_cons]

/-- A member that adds nothing, or a value with a new key, may stand anywhere. -/
theorem accepts_insert {m : Member} {entry : Option (String × Scalar)}
    (h : shape.added? m = some entry) {xs ys : List Member}
    (hNew : ∀ e ∈ entry, e.1 ∉ (shape.entries (xs ++ ys)).map Prod.fst) :
    shape.Accepts (xs ++ m :: ys) ↔ shape.Accepts (xs ++ ys) := by
  have hFitting : (∀ m' ∈ xs ++ m :: ys, (shape.added? m').isSome) ↔
      ∀ m' ∈ xs ++ ys, (shape.added? m').isSome := by
    simp only [List.forall_mem_append, List.forall_mem_cons, h, Option.isSome_some, true_and]
  have hDistinct : ((shape.entries (xs ++ m :: ys)).map Prod.fst).Nodup ↔
      ((shape.entries (xs ++ ys)).map Prod.fst).Nodup := by
    rw [entries_insert h, entries_append]
    cases entry with
    | none => rfl
    | some entry =>
      have hKey := hNew entry rfl
      rw [entries_append, List.map_append] at hKey
      rw [Option.toList_some, List.singleton_append, List.map_append, List.map_cons,
        List.nodup_middle, List.nodup_cons, List.map_append, and_iff_right hKey]
  constructor
  · intro hAccepts
    exact ⟨hFitting.mp hAccepts.fitting, hDistinct.mp hAccepts.distinct⟩
  · intro hAccepts
    exact ⟨hFitting.mpr hAccepts.fitting, hDistinct.mpr hAccepts.distinct⟩

theorem Accepts.perm {items items' : List Member} (h : items.Perm items')
    (hAccepts : shape.Accepts items) : shape.Accepts items' := by
  have hEntries : (shape.entries items).Perm (shape.entries items') := h.filterMap _
  exact ⟨fun m hm => hAccepts.fitting m (h.mem_iff.mpr hm),
    (hEntries.map Prod.fst).nodup_iff.mp hAccepts.distinct⟩

theorem lookup_perm {members members' : Members} (h : members.Perm members')
    (hDistinct : (members.map Prod.fst).Nodup) (key : String) :
    members.lookup key = members'.lookup key := by
  have hDistinct' := (h.map Prod.fst).nodup_iff.mp hDistinct
  cases hLookup : members'.lookup key with
  | none =>
    rw [lookup_eq_none] at hLookup ⊢
    exact fun hMem => hLookup ((h.map Prod.fst).mem_iff.mp hMem)
  | some value => exact lookup_of_mem hDistinct (h.mem_iff.mpr (mem_of_lookup hLookup))

theorem added?_alike {m m' : Member} (h : Item.Alike m m') : shape.added? m = shape.added? m' := by
  obtain ⟨hLead, hValue⟩ := h
  have hKey : Literal.content? m.key = Literal.content? m'.key := by
    obtain ⟨lead, value, after⟩ := m
    obtain ⟨lead', value', after'⟩ := m'
    cases hLead with
    | member _ _ _ _ _ _ hSame => exact hSame
  rw [added?, added?, hKey]
  congr 1
  funext key
  rw [addedUnder?, addedUnder?]
  cases shape.kind? key with
  | none => rfl
  | some kind => simp only [kind.value?_alike hValue]

theorem map_added?_alike {items items' : List Member} (h : List.Forall₂ Item.Alike items items') :
    items.map shape.added? = items'.map shape.added? := by
  induction h with
  | nil => rfl
  | cons hItem _ ih => rw [List.map_cons, List.map_cons, added?_alike hItem, ih]

theorem entries_congr {items items' : List Member}
    (h : items.map shape.added? = items'.map shape.added?) :
    shape.entries items = shape.entries items' := by
  have hEntries (items : List Member) :
      shape.entries items = (items.map shape.added?).filterMap Option.join := by
    rw [List.filterMap_map]
    rfl
  rw [hEntries, h, ← hEntries]

theorem Accepts.congr {items items' : List Member}
    (h : items.map shape.added? = items'.map shape.added?) (hAccepts : shape.Accepts items) :
    shape.Accepts items' := by
  have hFitting : ∀ entry ∈ items.map shape.added?, entry.isSome = true :=
    List.forall_mem_map.mpr hAccepts.fitting
  rw [h] at hFitting
  exact ⟨List.forall_mem_map.mp hFitting, entries_congr h ▸ hAccepts.distinct⟩

end Shape

end Json

/-- What becomes of a message that is decoded. -/
inductive Decoding where
  | event (e : Event)
  | noPayload
  | malformed
  | outOfRange (timestamp : Int)
  deriving DecidableEq

namespace Event

def decoding (bytes : List UInt8) : Decoding :=
  match ofBytes bytes with
  | .ok e => .event e
  | .error .noPayload => .noPayload
  | .error (.malformed _ _ _) => .malformed
  | .error (.timestampOutOfRange t) => .outOfRange t

def judged (e : Event) : Decoding :=
  if Calendar.covers e.timestamp then .event e else .outOfRange e.timestamp

theorem decoding_of_ne_nil {bytes : List UInt8} (h : bytes ≠ []) :
    decoding bytes = match (shape.read bytes).toOption with
      | some members => judged (ofMembers members)
      | none => .malformed := by
  rw [decoding, ofBytes, if_neg (by simpa using h)]
  cases shape.read bytes with
  | error fault => rfl
  | ok members =>
    simp only [toOption_ok, judged]
    by_cases hCovers : Calendar.covers (ofMembers members).timestamp = true
    · simp only [if_pos hCovers]
    · simp only [if_neg hCovers]

theorem text_ne_nil {frame : Frame} (d : Document frame) : d.text ≠ [] := by
  rw [d.text_eq]
  exact List.append_ne_nil_of_right_ne_nil _ (List.cons_ne_nil _ _)

theorem decoding_accepted {d : Document .object} (h : shape.Accepts d.items) :
    decoding d.text = judged (ofMembers (shape.entries d.items)) := by
  rw [decoding_of_ne_nil (text_ne_nil d), shape.read_object,
    (Shape.object?_eq_some rfl).mpr ⟨h, rfl⟩]

theorem decoding_refused {d : Document .object} (h : ¬ shape.Accepts d.items) :
    decoding d.text = .malformed := by
  have hObject : shape.object? d.items = none :=
    Option.eq_none_iff_forall_ne_some.mpr fun members hMembers =>
      h ((Shape.object?_eq_some rfl).mp hMembers).1
  rw [decoding_of_ne_nil (text_ne_nil d), shape.read_object, hObject]

/-- Objects with as good values are decoded alike. -/
theorem decoding_congr {d d' : Document .object}
    (hAccepts : shape.Accepts d.items ↔ shape.Accepts d'.items)
    (hValues : shape.Accepts d.items →
      ofMembers (shape.entries d.items) = ofMembers (shape.entries d'.items)) :
    decoding d.text = decoding d'.text := by
  by_cases h : shape.Accepts d.items
  · rw [decoding_accepted h, decoding_accepted (hAccepts.mp h), hValues h]
  · rw [decoding_refused h, decoding_refused (mt hAccepts.mpr h)]

/-- Absent values are as good as defaults. -/
theorem ofMembers_congr {members members' : Members}
    (h : ∀ name, members'.lookup name = members.lookup name ∨
      members.lookup name = none ∧ ∃ kind : Kind, members'.lookup name = some kind.default) :
    ofMembers members' = ofMembers members := by
  have hText (name : String) :
      (members'.text? name).getD "" = (members.text? name).getD "" := by
    rw [Members.text?, Members.text?]
    obtain hSame | ⟨hNone, kind, hDefault⟩ := h name
    · rw [hSame]
    · rw [hNone, hDefault]
      cases kind <;> rfl
  have hWhole (name : String) :
      (members'.whole? name).getD 0 = (members.whole? name).getD 0 := by
    rw [Members.whole?, Members.whole?]
    obtain hSame | ⟨hNone, kind, hDefault⟩ := h name
    · rw [hSame]
    · rw [hNone, hDefault]
      cases kind <;> rfl
  simp only [ofMembers, hText, hWhole]

/-- Changes of a text that leave the event it holds as it is. -/
inductive Change : Document .object → Document .object → Prop where
  | reorder {d d' : Document .object} (sameMembers : d.items.Perm d'.items) : Change d d'
  | respell {d d' : Document .object} (alike : List.Forall₂ Item.Alike d.items d'.items) :
    Change d d'
  | addUnknown {d d' : Document .object} {xs ys : List Member} (m : Member) {key : String}
    (isKey : Literal.content? m.key = some key) (unknown : key ∉ shape.fields.map Prod.fst)
    (without : d.items = xs ++ ys) (added : d'.items = xs ++ m :: ys) : Change d d'
  | addDefault {d d' : Document .object} {xs ys : List Member} (m : Member) {key : String}
    {kind : Kind} (isKey : Literal.content? m.key = some key) (known : (key, kind) ∈ shape.fields)
    (isDefault : kind.value? m.value = some kind.default)
    (absent : ∀ m' ∈ d.items, Literal.content? m'.key ≠ some key)
    (without : d.items = xs ++ ys) (added : d'.items = xs ++ m :: ys) : Change d d'

theorem Change.decoding_eq {d d' : Document .object} (h : Change d d') :
    decoding d.text = decoding d'.text := by
  cases h with
  | reorder sameMembers =>
    apply decoding_congr ⟨Shape.Accepts.perm sameMembers, Shape.Accepts.perm sameMembers.symm⟩
    intro hAccepts
    apply ofMembers_congr
    intro name
    exact Or.inl (Shape.lookup_perm (sameMembers.filterMap _) hAccepts.distinct name)
  | respell alike =>
    have hMap := @Shape.map_added?_alike shape _ _ alike
    apply decoding_congr ⟨Shape.Accepts.congr hMap, Shape.Accepts.congr hMap.symm⟩
    intro _
    rw [Shape.entries_congr hMap]
  | @addUnknown xs ys m key isKey unknown without added =>
    have hAdded := Shape.added?_unknown isKey unknown
    rw [decoding_congr]
    · rw [without, added]
      exact (Shape.accepts_insert hAdded nofun).symm
    · intro _
      rw [without, added, Shape.entries_insert hAdded, Shape.entries_append]
      rfl
  | @addDefault xs ys m key kind isKey known isDefault absent without added =>
    have hAdded := Shape.added?_known shape_plain isKey known
    rw [isDefault] at hAdded
    have hNew : key ∉ (shape.entries (xs ++ ys)).map Prod.fst := by
      intro hMem
      obtain ⟨m', hm', hSame⟩ := Shape.key_of_mem_entries hMem
      exact absent m' (without ▸ hm') hSame
    have hAccepts : shape.Accepts (xs ++ m :: ys) ↔ shape.Accepts (xs ++ ys) :=
      Shape.accepts_insert hAdded (by simpa using hNew)
    rw [decoding_congr]
    · rw [without, added]
      exact hAccepts.symm
    · intro h
      rw [without] at h
      rw [without, added]
      apply (ofMembers_congr _).symm
      intro name
      have hPerm : (shape.entries (xs ++ m :: ys)).Perm
          ((key, kind.default) :: shape.entries (xs ++ ys)) := by
        rw [Shape.entries_insert hAdded, Shape.entries_append]
        exact List.perm_middle
      rw [Shape.lookup_perm hPerm (hAccepts.mpr h).distinct, List.lookup_cons]
      by_cases hName : name = key
      · subst hName
        exact Or.inr ⟨lookup_eq_none.mpr hNew, kind, by simp⟩
      · left
        rw [beq_eq_false_iff_ne.mpr hName]

theorem decoding_twice {d : Document .object} {key : String}
    (hKnown : key ∈ shape.fields.map Prod.fst)
    (hTwice : 2 ≤ d.items.countP (fun m => Literal.content? m.key = some key)) :
    decoding d.text = .malformed := by
  apply decoding_refused
  intro hAccepts
  have hOnce := List.nodup_iff_count_le_one.mp hAccepts.distinct key
  rw [← Shape.countP_key hKnown hAccepts.fitting] at hOnce
  exact absurd hTwice (Nat.not_lt.mpr hOnce)

/-- Objects that differ by any series of the changes, made or undone, are decoded alike: the event
has the values of the known members, and an object with a known member twice is malformed. -/
theorem decoded_by_known_members :
    (∀ d d' : Document .object, Relation.EqvGen Change d d' → decoding d.text = decoding d'.text) ∧
    (∀ (d : Document .object) (key : String), key ∈ shape.fields.map Prod.fst →
      2 ≤ d.items.countP (fun m => Literal.content? m.key = some key) →
      decoding d.text = .malformed) ∧
    ∀ d : Document .object, shape.Accepts d.items →
      decoding d.text = judged (ofMembers (shape.entries d.items)) := by
  refine ⟨fun d d' h => ?_, fun d key => decoding_twice, fun d => decoding_accepted⟩
  induction h with
  | rel d d' hChange => exact hChange.decoding_eq
  | refl d => rfl
  | symm d d' _ ih => exact ih.symm
  | trans d d' d'' _ _ ih ih' => exact ih.trans ih'

section Example

/-- The pieces of a text without quotes, backslashes and controls. -/
def plain (s : String) : List Literal.Piece := Literal.plainly (Utf8.encode s)

def digit (negative : Bool) (b : UInt8) (h : Number.isDigit b = true) : Tree :=
  .number
    { negative, whole := ⟨[b], List.cons_ne_nil _ _, List.forall_mem_singleton.mpr h⟩,
      noLeadingZero := fun _ hMore => (List.cons.inj hMore).2.symm, fraction := none,
      exponent := none }

def space : Blanks := ⟨[0x20], List.forall_mem_singleton.mpr rfl⟩

def lineFeed : Blanks := ⟨[0x0A], List.forall_mem_singleton.mpr rfl⟩

def dense (key : List Literal.Piece) (value : Tree) : Member :=
  ⟨.member .none key .none .none, value, .none⟩

def spaced (key : List Literal.Piece) (value : Tree) : Member :=
  ⟨.member space key lineFeed space, value, .none⟩

def objectOf (items : List Member) : Document .object := ⟨.none, items, .none, .none⟩

/-- The key of an agent with its underscore escaped. -/
def escapedKey : List Literal.Piece :=
  plain "agent" ++ .code 0x30 0x30 0x35 0x46 0x5F (by decide) :: plain "id"

def agent : Member := dense (plain "agent_id") (.literal (plain "a"))

def minusOne : Tree := digit true 0x31 rfl

def moment : Member := dense (plain "timestamp") minusOne

def agentSpaced : Member := spaced escapedKey (.literal (plain "a"))

def momentSpaced : Member := spaced (plain "timestamp") minusOne

def severitySpaced : Member := spaced (plain "severity") (digit false 0x30 rfl)

/-- An unknown member whose value holds an object with a known key. -/
def unknown (w : Blanks) : Member :=
  spaced (plain "zz") (.bracket .list (.cons (.element w)
    (.bracket .object (.cons (.member w (plain "agent_id") w w) (digit false 0x37 rfl) w (.nil w)))
    w (.nil w)))

/-- The object `{"timestamp":-1,"agent_id":"a"}`. -/
def brief : Document .object := objectOf [moment, agent]

/-- The same in another order, with blanks, an escaped key, unknown members and a default. -/
def verbose : Document .object :=
  objectOf [agentSpaced, unknown .none, severitySpaced, unknown space, momentSpaced]

theorem brief_changes_to_verbose : Relation.EqvGen Change brief verbose := by
  have hReorder : Change brief (objectOf [agent, moment]) := .reorder (List.Perm.swap _ _ _)
  have hAgent : Item.Alike agent agentSpaced := ⟨.member _ _ _ _ _ _ rfl, .refl _⟩
  have hMoment : Item.Alike moment momentSpaced := ⟨.member _ _ _ _ _ _ rfl, .refl _⟩
  have hRespell : Change (objectOf [agent, moment]) (objectOf [agentSpaced, momentSpaced]) :=
    .respell (.cons hAgent (.cons hMoment .nil))
  have hUnknown : Change (objectOf [agentSpaced, momentSpaced])
      (objectOf [agentSpaced, unknown .none, momentSpaced]) :=
    @Change.addUnknown _ _ [_] [_] (unknown _) "zz" rfl (by decide) rfl rfl
  have hDefault : Change (objectOf [agentSpaced, unknown .none, momentSpaced])
      (objectOf [agentSpaced, unknown .none, severitySpaced, momentSpaced]) :=
    @Change.addDefault _ _ [_, _] [_] severitySpaced "severity" (.whole .int32) rfl (by decide) rfl
      (by decide) rfl rfl
  have hRepeated : Change (objectOf [agentSpaced, unknown .none, severitySpaced, momentSpaced])
      verbose :=
    @Change.addUnknown _ _ [_, _, _] [_] (unknown _) "zz" rfl (by decide) rfl rfl
  exact ((((Relation.EqvGen.rel _ _ hReorder).trans _ _ _ (.rel _ _ hRespell)).trans _ _ _
    (.rel _ _ hUnknown)).trans _ _ _ (.rel _ _ hDefault)).trans _ _ _ (.rel _ _ hRepeated)

theorem brief_and_verbose_decode_alike :
    Relation.EqvGen Change brief verbose ∧ decoding brief.text = decoding verbose.text ∧
    (2 ≤ [agent, moment, agentSpaced].countP (fun m => Literal.content? m.key = some "agent_id") ∧
      decoding (objectOf [agent, moment, agentSpaced]).text = .malformed) ∧
    shape.Accepts brief.items ∧
    decoding brief.text = .event { agentId := "a", timestamp := -1 } := by
  have hTwice : 2 ≤ [agent, moment, agentSpaced].countP
      (fun m => Literal.content? m.key = some "agent_id") := by decide
  have hAccepts : shape.Accepts brief.items := ⟨by decide, by decide⟩
  refine ⟨brief_changes_to_verbose,
    decoded_by_known_members.1 brief verbose brief_changes_to_verbose,
    ⟨hTwice, decoded_by_known_members.2.1 (objectOf [agent, moment, agentSpaced]) "agent_id"
      (by decide) hTwice⟩, hAccepts, ?_⟩
  rw [decoded_by_known_members.2.2 brief hAccepts]
  rfl

end Example

end Event

end EventIngest
