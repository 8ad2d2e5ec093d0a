import EventIngest.Proofs.LedgerOrder
/-!
# Single entries

What a ledger says of one place is the entry that is found there. An operation changes the entries
of the places that it names and no others; handing out queued messages again changes the entries of
those places that come first among the queued ones.
-/
namespace EventIngest

def Delivery.place (d : Delivery) : Int × Int := (d.handle.partition, d.handle.offset)

namespace Ledger

/-- The order of places: by partition, and within one by offset. -/
def Precedes (a b : Int × Int) : Prop := a.1 < b.1 ∨ (a.1 = b.1 ∧ a.2 < b.2)

instance : Std.Irrefl Precedes := ⟨fun a h => by simp only [Precedes] at h; omega⟩

instance : Std.Antisymm Precedes := ⟨fun a b h h' => by simp only [Precedes] at h h'; omega⟩

def Entry.place (e : Entry) : Int × Int := (e.partition, e.offset)

theorem Entry.isAt_iff_place {e : Entry} {p o : Int} : e.isAt p o = true ↔ e.place = (p, o) := by
  rw [Entry.isAt_iff, Entry.place, Prod.mk.injEq]

theorem Entry.Before.place_ne {a b : Entry} (h : a.Before b) : a.place ≠ b.place := by
  simp only [Entry.Before, Entry.place, ne_eq, Prod.mk.injEq] at h ⊢
  omega

section Entries

variable {es : List Entry} {e : Entry} {p o q r : Int}

theorem find?_isAt_cons :
    (e :: es).find? (·.isAt p o) = if e.place = (p, o) then some e else es.find? (·.isAt p o) := by
  rw [List.find?_cons]
  split
  · rename_i hAt
    rw [if_pos (Entry.isAt_iff_place.mp hAt)]
  · rename_i hAt
    rw [if_neg]
    exact fun hPlace => Bool.eq_false_iff.mp hAt (Entry.isAt_iff_place.mpr hPlace)

theorem Ascending.place_ne (h : Ascending (e :: es)) {e' : Entry} (he' : e' ∈ es) :
    e.place ≠ e'.place := ((List.pairwise_cons.mp h).1 e' he').place_ne

theorem Ascending.find?_eq_some (h : Ascending es) :
    es.find? (·.isAt p o) = some e ↔ e ∈ es ∧ e.place = (p, o) := by
  induction es with
  | nil => simp
  | cons a es ih =>
    rw [find?_isAt_cons, List.mem_cons]
    split
    · rename_i hHere
      rw [Option.some.injEq]
      constructor
      · rintro rfl
        exact ⟨.inl rfl, hHere⟩
      · rintro ⟨rfl | he, hPlace⟩
        · rfl
        · exact absurd (hHere.trans hPlace.symm) (h.place_ne he)
    · rename_i hElsewhere
      rw [ih (List.pairwise_cons.mp h).2]
      refine and_congr_left fun hPlace => (or_iff_right ?_).symm
      rintro rfl
      exact hElsewhere hPlace

theorem isSome_find?_isAt : (es.find? (·.isAt p o)).isSome = true ↔ (p, o) ∈ places es := by
  rw [List.find?_isSome, mem_places]
  simp only [Entry.isAt_iff]

theorem Ascending.find?_enter (h : Ascending es) (payload : Option (List UInt8)) :
    (enter p o payload es).find? (·.isAt q r)
      = if q = p ∧ r = o then
          some (((es.find? (·.isAt p o)).map Entry.handOut).getD ⟨p, o, payload, 1, false⟩)
        else es.find? (·.isAt q r) := by
  induction es with
  | nil =>
    rw [enter, find?_isAt_cons, Entry.place]
    simp only [List.find?_nil, Option.map_none, Option.getD_none, Prod.mk.injEq, eq_comm]
  | cons e es ih =>
    obtain ⟨hFirst, hRest⟩ := List.pairwise_cons.mp h
    rw [enter]
    split
    · rename_i hAt
      have hHere : e.place = (p, o) := Entry.isAt_iff_place.mp hAt
      have hHanded : e.handOut.place = (p, o) := hHere
      rw [find?_isAt_cons, find?_isAt_cons, find?_isAt_cons, hHanded, hHere, if_pos rfl]
      simp only [Option.map_some, Option.getD_some, Prod.mk.injEq, eq_comm]
      split
      · rfl
      · rfl
    · rename_i hAt
      have hElsewhere : e.place ≠ (p, o) := fun hPlace => hAt (Entry.isAt_iff_place.mpr hPlace)
      split
      · rename_i hAfter
        have hNone : (e :: es).find? (·.isAt p o) = none := by
          rw [List.find?_eq_none]
          intro e' he' hAt'
          obtain ⟨hPartition, hOffset⟩ := Entry.isAt_iff.mp hAt'
          rw [Entry.isAfter_iff] at hAfter
          rcases List.mem_cons.mp he' with rfl | he'
          · omega
          · have hBefore := hFirst e' he'
            simp only [Entry.Before] at hBefore
            omega
        rw [find?_isAt_cons, hNone, Entry.place]
        simp only [Option.map_none, Option.getD_none, Prod.mk.injEq, eq_comm]
      · rw [find?_isAt_cons, ih hRest, find?_isAt_cons, find?_isAt_cons, if_neg hElsewhere]
        by_cases hHere : q = p ∧ r = o
        · obtain ⟨rfl, rfl⟩ := hHere
          simp only [and_self, if_true, if_neg hElsewhere]
        · rw [if_neg hHere, if_neg hHere]

theorem find?_filter_isAt {keep : Entry → Bool} (kept : Bool)
    (h : ∀ e ∈ es, e.place = (p, o) → keep e = kept) :
    (es.filter keep).find? (·.isAt p o) = if kept then es.find? (·.isAt p o) else none := by
  induction es with
  | nil => simp
  | cons e es ih =>
    obtain ⟨hHere, hRest⟩ := List.forall_mem_cons.mp h
    rw [List.filter_cons, find?_isAt_cons]
    cases hKeep : keep e <;> cases kept <;> grind [find?_isAt_cons]

theorem find?_map_isAt {f : Entry → Entry} (hf : ∀ e, (f e).place = e.place) :
    (es.map f).find? (·.isAt p o) = (es.find? (·.isAt p o)).map f := by
  induction es with
  | nil => rfl
  | cons e es ih =>
    rw [List.map_cons, find?_isAt_cons, find?_isAt_cons, hf, ih]
    split <;> rfl

end Entries

section Redelivering

variable {es : List Entry} {p o : Int}

def queuedPlaces (es : List Entry) : List (Int × Int) := places (es.filter (·.queued))

theorem Ascending.queuedPlaces_sorted (h : Ascending es) : (queuedPlaces es).Pairwise Precedes :=
  ascending_iff.mp (h.sublist List.filter_sublist)

theorem Ascending.queuedPlaces_nodup (h : Ascending es) : (queuedPlaces es).Nodup := by
  refine h.queuedPlaces_sorted.imp ?_
  rintro a b hBefore rfl
  exact Std.Irrefl.irrefl a hBefore

theorem Ascending.mem_queuedPlaces (h : Ascending es) :
    (p, o) ∈ queuedPlaces es ↔ (es.find? (·.isAt p o)).any (·.queued) = true := by
  rw [queuedPlaces, mem_places, Option.any_eq_true]
  simp only [h.find?_eq_some, List.mem_filter, Entry.place, Prod.mk.injEq]
  constructor
  · rintro ⟨e, ⟨he, hQueued⟩, hPlace⟩
    exact ⟨e, ⟨he, hPlace⟩, hQueued⟩
  · rintro ⟨e, ⟨he, hPlace⟩, hQueued⟩
    exact ⟨e, ⟨he, hQueued⟩, hPlace⟩

/-- The first queued entries are handed out, as many as are asked for. -/
theorem handOutQueued_fst (n : Nat) (es : List Entry) :
    (handOutQueued n es).1 = ((es.filter (·.queued)).take n).map fun e => e.handOut.delivery := by
  fun_induction handOutQueued n es <;> simp_all

theorem places_handOutQueued (n : Nat) (es : List Entry) :
    (handOutQueued n es).1.map Delivery.place = (queuedPlaces es).take n := by
  rw [handOutQueued_fst, queuedPlaces, places, List.map_map, List.map_take]
  rfl

/-- The entries of the places that were handed out are counted up; the others are left. -/
theorem Ascending.handOutQueued_snd (h : Ascending es) (n : Nat) :
    (handOutQueued n es).2
      = es.map fun e => if e.place ∈ (queuedPlaces es).take n then e.handOut else e := by
  fun_induction handOutQueued n es with
  | case1 n => rfl
  | case2 es hNonempty => simp
  | case3 n e es hQueued deliveries rest hRest ih =>
    obtain ⟨hFirst, hTail⟩ := List.pairwise_cons.mp h
    have hQueue : queuedPlaces (e :: es) = e.place :: queuedPlaces es := by
      simp [queuedPlaces, places, hQueued, Entry.place]
    have hHanded := ih hTail
    rw [hRest] at hHanded
    rw [hQueue, List.take_succ_cons, List.map_cons, if_pos List.mem_cons_self]
    refine congrArg (e.handOut :: ·) (hHanded.trans ?_)
    refine List.map_congr_left fun e' he' => ?_
    simp only [List.mem_cons, or_iff_right (hFirst e' he').place_ne.symm]
  | case4 n e es hQueued deliveries rest hRest ih =>
    obtain ⟨hFirst, hTail⟩ := List.pairwise_cons.mp h
    have hQueue : queuedPlaces (e :: es) = queuedPlaces es := by
      simp [queuedPlaces, hQueued]
    have hOut : e.place ∉ (queuedPlaces es).take (n + 1) := by
      intro hIn
      obtain ⟨e', he', hPartition, hOffset⟩ := mem_places.mp (List.mem_of_mem_take hIn)
      exact (hFirst e' (List.mem_filter.mp he').1).place_ne (Prod.ext hPartition.symm hOffset.symm)
    have hHanded := ih hTail
    rw [hRest] at hHanded
    rw [hQueue, List.map_cons, if_neg hOut]
    exact congrArg (e :: ·) hHanded

end Redelivering

section Found

variable {l : Ledger} {p o q r : Int}

theorem isPending_iff : l.isPending p o = true ↔ (p, o) ∈ places l.pending := isSome_find?_isAt

theorem Ordered.find?_deliver (h : l.Ordered) (payload : Option (List UInt8)) :
    (l.deliver p o payload).2.find? q r
      = if q = p ∧ r = o then
          some (((l.find? p o).map Entry.handOut).getD ⟨p, o, payload, 1, false⟩)
        else l.find? q r :=
  h.pending.find?_enter payload

theorem find?_ack : (l.ack p o).2.find? q r = if q = p ∧ r = o then none else l.find? q r := by
  have hKept : ∀ e ∈ l.pending, e.place = (q, r) → (!e.isAt p o) = !(q == p && r == o) := by
    intro e _ hPlace
    obtain ⟨rfl, rfl⟩ := Prod.mk.inj hPlace
    rfl
  rw [find?, ack, find?_filter_isAt _ hKept, find?]
  by_cases hHere : q = p ∧ r = o
  · simp [hHere]
  · rw [if_neg hHere, if_pos]
    simp only [Bool.not_eq_true', Bool.and_eq_false_iff, beq_eq_false_iff_ne]
    omega

theorem find?_nak :
    (l.nak p o).2.find? q r
      = (l.find? q r).map fun e => if q = p ∧ r = o then { e with queued := true } else e := by
  rw [find?, nak, find?_map_isAt (fun e => by split <;> rfl), find?]
  refine Option.map_congr fun e he => ?_
  have hAt : e.isAt q r = true := List.find?_some (p := fun e : Entry => e.isAt q r) he
  obtain ⟨rfl, rfl⟩ := Entry.isAt_iff.mp hAt
  simp only [Entry.isAt_iff]

theorem find?_revoke : (l.revoke p).2.find? q r = if q = p then none else l.find? q r := by
  have hKept : ∀ e ∈ l.pending, e.place = (q, r) → (e.partition != p) = (q != p) := by
    intro e _ hPlace
    obtain ⟨rfl, rfl⟩ := Prod.mk.inj hPlace
    rfl
  rw [find?, revoke, find?_filter_isAt _ hKept, find?]
  by_cases hHere : q = p
  · simp [hHere]
  · simp [hHere]

theorem Ordered.find?_redeliver (h : l.Ordered) (max : Nat) :
    (l.redeliver max).2.find? p o
      = (l.find? p o).map fun e =>
          if (p, o) ∈ (queuedPlaces l.pending).take max then e.handOut else e := by
  have hPending : (l.redeliver max).2.pending = (handOutQueued max l.pending).2 := rfl
  rw [find?, hPending, h.pending.handOutQueued_snd, find?_map_isAt (fun e => by split <;> rfl), find?]
  refine Option.map_congr fun e he => ?_
  have hAt : e.isAt p o = true := List.find?_some (p := fun e : Entry => e.isAt p o) he
  rw [Entry.isAt_iff_place.mp hAt]

theorem Ordered.known_assign (h : l.Ordered) : known q (l.assign p).owned = known q l.owned := by
  rw [Ledger.assign, known_alter (f := id) (fun _ => rfl) h.owned]
  split
  · rename_i hHere
    rw [hHere]
    rfl
  · rfl

theorem Ordered.known_deliver (h : l.Ordered) (payload : Option (List UInt8)) :
    known q (l.deliver p o payload).2.owned
      = if q = p then (known p l.owned).reach o else known q l.owned :=
  known_alter (fun _ => rfl) h.owned

theorem known_revoke :
    known q (l.revoke p).2.owned = if q = p then { partition := p } else known q l.owned := by
  split
  · rename_i hHere
    rw [hHere]
    exact known_filter_self
  · rename_i hOther
    exact known_filter hOther

theorem lowestPending_eq (l : Ledger) (p : Int) :
    l.lowestPending p = ((places l.pending).find? (·.1 == p)).map (·.2) := by
  rw [places, List.find?_map, Option.map_map]
  rfl

theorem redeliver_fst (l : Ledger) (max : Nat) :
    (l.redeliver max).1
      = ((l.pending.filter (·.queued)).take max).map fun e => e.handOut.delivery :=
  handOutQueued_fst max l.pending

end Found

end Ledger

end EventIngest
