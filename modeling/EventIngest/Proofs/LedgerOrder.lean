import EventIngest.Proofs.Pending
import Mathlib.Order.Bounds.Defs
/-!
# Ordered ledgers

The entries of a ledger are in increasing order of their places, and its partitions are in
increasing order. Every operation keeps this. It makes the first entry that is found for a partition
the lowest one, and what is found for a partition all that is known of it.
-/
namespace EventIngest.Ledger

namespace Entry

def Before (a b : Entry) : Prop :=
  a.partition < b.partition ∨ (a.partition = b.partition ∧ a.offset < b.offset)

theorem isAt_iff {e : Entry} {p o : Int} : e.isAt p o = true ↔ e.partition = p ∧ e.offset = o := by
  simp [isAt]

theorem isAfter_iff {e : Entry} {p o : Int} :
    e.isAfter p o = true ↔ p < e.partition ∨ (p = e.partition ∧ o < e.offset) := by
  simp [isAfter]

end Entry

def places (es : List Entry) : List (Int × Int) := es.map fun e => (e.partition, e.offset)

theorem mem_places {es : List Entry} {p o : Int} :
    (p, o) ∈ places es ↔ ∃ e ∈ es, e.partition = p ∧ e.offset = o := by
  simp [places]

def Ascending (es : List Entry) : Prop := es.Pairwise Entry.Before

theorem ascending_iff {es : List Entry} :
    Ascending es ↔
      (places es).Pairwise fun a b => a.1 < b.1 ∨ (a.1 = b.1 ∧ a.2 < b.2) := by
  rw [places, List.pairwise_map]
  rfl

/-- The order of entries depends on their places alone. -/
theorem Ascending.of_places {es es' : List Entry} (h : Ascending es)
    (hPlaces : places es' = places es) : Ascending es' := by
  rw [ascending_iff, hPlaces]
  exact ascending_iff.mp h

section Entering

variable {p o : Int} {payload : Option (List UInt8)} {es : List Entry}

theorem mem_places_enter {q r : Int} :
    (q, r) ∈ places (enter p o payload es) ↔ (q = p ∧ r = o) ∨ (q, r) ∈ places es := by
  induction es with
  | nil => simp [enter, places]
  | cons e es ih =>
    rw [enter]
    split
    · rename_i hAt
      obtain ⟨hPartition, hOffset⟩ := Entry.isAt_iff.mp hAt
      simp only [places, List.map_cons, List.mem_cons, Entry.handOut, Prod.mk.injEq]
      grind
    · split
      · simp [places]
      · simp only [places, List.map_cons, List.mem_cons] at ih ⊢
        rw [ih]
        grind

theorem enter_ascending (h : Ascending es) : Ascending (enter p o payload es) := by
  induction es with
  | nil => exact List.pairwise_singleton _ _
  | cons e es ih =>
    obtain ⟨hFirst, hRest⟩ := List.pairwise_cons.mp h
    rw [enter]
    split
    · exact h.of_places rfl
    · rename_i hAt
      split
      · rename_i hAfter
        rw [Entry.isAfter_iff] at hAfter
        refine List.pairwise_cons.mpr ⟨?_, h⟩
        intro e' he'
        rcases List.mem_cons.mp he' with rfl | he'
        · exact hAfter
        · have hBefore := hFirst e' he'
          simp only [Entry.Before] at hBefore ⊢
          omega
      · rename_i hAfter
        refine List.pairwise_cons.mpr ⟨?_, ih hRest⟩
        intro e' he'
        have hPlace := mem_places_enter.mp (mem_places.mpr ⟨e', he', rfl, rfl⟩)
        rcases hPlace with ⟨hPartition, hOffset⟩ | hOld
        · rw [Entry.isAt_iff] at hAt
          rw [Entry.isAfter_iff] at hAfter
          simp only [Entry.Before]
          omega
        · obtain ⟨e'', he'', hPartition, hOffset⟩ := mem_places.mp hOld
          have hBefore := hFirst e'' he''
          simp only [Entry.Before] at hBefore ⊢
          omega

end Entering

section Owning

def Numbered (ps : List Progress) : Prop := ps.Pairwise (·.partition < ·.partition)

/-- What is known of a partition: nothing if it is not owned. -/
def known (p : Int) (ps : List Progress) : Progress :=
  (ps.find? (·.partition == p)).getD { partition := p }

variable {p q : Int} {ps : List Progress} {f : Progress → Progress}

theorem known_cons (a : Progress) :
    known p (a :: ps) = if a.partition = p then a else known p ps := by
  rw [known, known]
  split
  · rename_i h
    rw [List.find?_cons_of_pos (by simp [h]), Option.getD_some]
  · rename_i h
    rw [List.find?_cons_of_neg (by simp [h])]

theorem known_of_lt (h : ∀ a ∈ ps, p < a.partition) : known p ps = { partition := p } := by
  rw [known, List.find?_eq_none.mpr, Option.getD_none]
  intro a ha
  have hLess := h a ha
  simp only [beq_iff_eq]
  omega

@[simp] theorem known_partition : (known p ps).partition = p := by
  induction ps with
  | nil => rfl
  | cons a ps ih =>
    rw [known_cons]
    split
    · assumption
    · exact ih

theorem known_eq_of_mem (h : Numbered ps) {a : Progress} (ha : a ∈ ps) :
    known a.partition ps = a := by
  induction ps with
  | nil => cases ha
  | cons b ps ih =>
    obtain ⟨hFirst, hRest⟩ := List.pairwise_cons.mp h
    rw [known_cons]
    rcases List.mem_cons.mp ha with rfl | ha
    · rw [if_pos rfl]
    · have hLess := hFirst a ha
      rw [if_neg (by omega), ih hRest ha]

theorem known_mem (h : (known p ps).next ≠ none) : known p ps ∈ ps := by
  rw [known] at h ⊢
  cases hFound : ps.find? (·.partition == p) with
  | none => simp [hFound] at h
  | some a => exact List.mem_of_find?_eq_some hFound

theorem mem_partitions_alter (hf : ∀ a, (f a).partition = a.partition) {r : Int} :
    r ∈ (alter p f ps).map (·.partition) ↔ r = p ∨ r ∈ ps.map (·.partition) := by
  induction ps with
  | nil => simp [alter, hf]
  | cons a ps ih =>
    rw [alter]
    split
    · rename_i hHere
      simp only [List.map_cons, List.mem_cons, hf]
      grind
    · split
      · simp [hf]
      · simp only [List.map_cons, List.mem_cons, ih]
        grind

theorem alter_numbered (hf : ∀ a, (f a).partition = a.partition) (h : Numbered ps) :
    Numbered (alter p f ps) := by
  induction ps with
  | nil => exact List.pairwise_singleton _ _
  | cons a ps ih =>
    obtain ⟨hFirst, hRest⟩ := List.pairwise_cons.mp h
    rw [alter]
    split
    · refine List.pairwise_cons.mpr ⟨fun b hb => ?_, hRest⟩
      rw [hf]
      exact hFirst b hb
    · rename_i hOther
      split
      · rename_i hLess
        refine List.pairwise_cons.mpr ⟨fun b hb => ?_, h⟩
        rw [hf]
        rcases List.mem_cons.mp hb with rfl | hb
        · exact hLess
        · exact Int.lt_trans hLess (hFirst b hb)
      · refine List.pairwise_cons.mpr ⟨fun b hb => ?_, ih hRest⟩
        rcases (mem_partitions_alter hf).mp (List.mem_map_of_mem hb) with hHere | hOld
        · omega
        · obtain ⟨c, hc, hSame⟩ := List.mem_map.mp hOld
          exact hSame ▸ hFirst c hc

theorem known_alter (hf : ∀ a, (f a).partition = a.partition) (h : Numbered ps) :
    known q (alter p f ps) = if q = p then f (known p ps) else known q ps := by
  induction ps with
  | nil =>
    rw [alter, known_cons, hf]
    split <;> grind [known]
  | cons a ps ih =>
    obtain ⟨hFirst, hRest⟩ := List.pairwise_cons.mp h
    rw [alter]
    split
    · rename_i hHere
      simp only [known_cons, hf, hHere, if_true]
      split <;> grind
    · rename_i hOther
      split
      · rename_i hLess
        have hNone : known p (a :: ps) = { partition := p } := by
          refine known_of_lt fun b hb => ?_
          rcases List.mem_cons.mp hb with rfl | hb
          · exact hLess
          · exact Int.lt_trans hLess (hFirst b hb)
        rw [hNone, known_cons, hf]
        split <;> grind
      · rw [known_cons, ih hRest, known_cons, known_cons]
        grind

theorem known_filter (h : q ≠ p) : known q (ps.filter (·.partition != p)) = known q ps := by
  rw [known, known, List.find?_filter]
  congr 2
  funext a
  by_cases hq : a.partition = q
  · simp [hq, h]
  · simp [hq]

theorem known_filter_self : known p (ps.filter (·.partition != p)) = { partition := p } := by
  rw [known, List.find?_eq_none.mpr, Option.getD_none]
  intro a ha
  simpa using (List.mem_filter.mp ha).2

theorem known_map (hf : ∀ a, (f a).partition = a.partition)
    (h : known p ps ∈ ps ∨ f (known p ps) = known p ps) :
    known p (ps.map f) = f (known p ps) := by
  induction ps with
  | nil => exact (h.resolve_left List.not_mem_nil).symm
  | cons a ps ih =>
    rw [List.map_cons, known_cons, hf]
    rw [known_cons] at h ⊢
    split
    · rfl
    · rename_i hOther
      rw [if_neg hOther] at h
      refine ih (h.imp_left fun hMem => ?_)
      refine (List.mem_cons.mp hMem).resolve_left fun hSame => hOther ?_
      rw [← hSame, known_partition]

theorem map_numbered (hf : ∀ a, (f a).partition = a.partition) (h : Numbered ps) :
    Numbered (ps.map f) := by
  rw [Numbered, List.pairwise_map]
  refine h.imp ?_
  intro a b hLess
  rwa [hf, hf]

end Owning

structure Ordered (l : Ledger) : Prop where
  pending : Ascending l.pending
  owned : Numbered l.owned

namespace Ordered

variable {l : Ledger}

theorem assign (h : l.Ordered) (p : Int) : (l.assign p).Ordered :=
  ⟨h.pending, alter_numbered (fun _ => rfl) h.owned⟩

theorem revoke (h : l.Ordered) (p : Int) : (l.revoke p).2.Ordered :=
  ⟨h.pending.sublist List.filter_sublist, h.owned.sublist List.filter_sublist⟩

theorem deliver (h : l.Ordered) (p o : Int) (payload : Option (List UInt8)) :
    (l.deliver p o payload).2.Ordered :=
  ⟨enter_ascending h.pending, alter_numbered (fun _ => rfl) h.owned⟩

theorem mem_places_revoke {l : Ledger} {p q r : Int} :
    (q, r) ∈ places (l.revoke p).2.pending ↔ q ≠ p ∧ (q, r) ∈ places l.pending := by
  simp only [Ledger.revoke, mem_places, List.mem_filter, bne_iff_ne]
  constructor
  · rintro ⟨e, ⟨he, hOther⟩, rfl, rfl⟩
    exact ⟨hOther, e, he, rfl, rfl⟩
  · rintro ⟨hOther, e, he, rfl, rfl⟩
    exact ⟨e, ⟨he, hOther⟩, rfl, rfl⟩

theorem ack (h : l.Ordered) (p o : Int) : (l.ack p o).2.Ordered :=
  ⟨h.pending.sublist List.filter_sublist, h.owned⟩

theorem mem_places_ack {l : Ledger} {p o q r : Int} :
    (q, r) ∈ places (l.ack p o).2.pending ↔ ¬ (q = p ∧ r = o) ∧ (q, r) ∈ places l.pending := by
  simp only [Ledger.ack, mem_places, List.mem_filter, Bool.not_eq_true', Bool.eq_false_iff, ne_eq,
    Entry.isAt_iff]
  constructor
  · rintro ⟨e, ⟨he, hOther⟩, rfl, rfl⟩
    exact ⟨hOther, e, he, rfl, rfl⟩
  · rintro ⟨hOther, e, he, rfl, rfl⟩
    exact ⟨e, ⟨he, hOther⟩, rfl, rfl⟩

theorem places_nak (l : Ledger) (p o : Int) :
    places (l.nak p o).2.pending = places l.pending := by
  rw [places, Ledger.nak, List.map_map]
  refine List.map_congr_left fun e _ => ?_
  simp only [Function.comp_apply]
  split <;> rfl

theorem nak (h : l.Ordered) (p o : Int) : (l.nak p o).2.Ordered :=
  ⟨h.pending.of_places (places_nak l p o), h.owned⟩

theorem places_redeliver (l : Ledger) (max : Nat) :
    places (l.redeliver max).2.pending = places l.pending :=
  handOutQueued_map (fun _ => rfl) max l.pending

theorem redeliver (h : l.Ordered) (max : Nat) : (l.redeliver max).2.Ordered :=
  ⟨h.pending.of_places (places_redeliver l max), h.owned⟩

theorem commit (h : l.Ordered) : l.commit.2.Ordered := by
  refine ⟨h.pending, map_numbered (fun a => ?_) h.owned⟩
  split <;> rfl

/-- The entry that is found first for a partition is its lowest one. -/
theorem lowestPending_eq_some (h : l.Ordered) {p o : Int} :
    l.lowestPending p = some o ↔ IsLeast { o | (p, o) ∈ places l.pending } o := by
  have hAscending := h.pending
  rw [lowestPending]
  generalize l.pending = es at hAscending ⊢
  induction es with
  | nil => exact ⟨nofun, fun hLeast => absurd hLeast.1 List.not_mem_nil⟩
  | cons e es ih =>
    obtain ⟨hFirst, hRest⟩ := List.pairwise_cons.mp hAscending
    by_cases hHere : e.partition = p
    · rw [List.find?_cons_of_pos (by simp [hHere]), Option.map_some, Option.some.injEq]
      have hLeast : IsLeast { o | (p, o) ∈ places (e :: es) } e.offset := by
        refine ⟨mem_places.mpr ⟨e, List.mem_cons_self, hHere, rfl⟩, ?_⟩
        intro r hr
        obtain ⟨e', he', hPartition, rfl⟩ := mem_places.mp hr
        rcases List.mem_cons.mp he' with rfl | he'
        · exact Int.le_refl _
        · have hBefore := hFirst e' he'
          simp only [Entry.Before] at hBefore
          omega
      refine ⟨fun hEq => hEq ▸ hLeast, fun hOther => ?_⟩
      exact Int.le_antisymm (hLeast.2 hOther.1) (hOther.2 hLeast.1)
    · have hSame : { o | (p, o) ∈ places (e :: es) } = { o | (p, o) ∈ places es } := by
        ext r
        change (p, r) ∈ places (e :: es) ↔ (p, r) ∈ places es
        simp only [places, List.map_cons, List.mem_cons, Prod.mk.injEq]
        grind
      rw [List.find?_cons_of_neg (by simp [hHere]), hSame]
      exact ih hRest

theorem lowestPending_eq_none {l : Ledger} {p : Int} :
    l.lowestPending p = none ↔ ∀ o, (p, o) ∉ places l.pending := by
  rw [lowestPending, Option.map_eq_none_iff, List.find?_eq_none]
  constructor
  · intro h o hPlace
    obtain ⟨e, he, hPartition, -⟩ := mem_places.mp hPlace
    exact h e he (beq_iff_eq.mpr hPartition)
  · intro h e he hPartition
    exact h e.offset (mem_places.mpr ⟨e, he, beq_iff_eq.mp hPartition, rfl⟩)

end Ordered

end EventIngest.Ledger
