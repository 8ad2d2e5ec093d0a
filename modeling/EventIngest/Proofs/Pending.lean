import EventIngest.Ledger
import EventIngest.Proofs.Faithful
/-!
# Pending entries

The entries of a ledger are of two kinds: those that are queued to be handed out again, and the open
ones, which are with someone. What the operations of a ledger do to the offsets of either kind.
-/
namespace EventIngest.Ledger

def openOffsets (es : List Entry) : List Int := (es.filter (!·.queued)).map (·.offset)

def queuedOffsets (es : List Entry) : List Int := (es.filter (·.queued)).map (·.offset)

theorem offsets_perm (es : List Entry) :
    (openOffsets es ++ queuedOffsets es).Perm (es.map (·.offset)) := by
  rw [openOffsets, queuedOffsets, ← List.map_append]
  refine List.Perm.map _ (List.perm_append_comm.trans ?_)
  exact List.filter_append_perm (·.queued) es

theorem mem_openOffsets {es : List Entry} {o : Int} :
    o ∈ openOffsets es ↔ ∃ e ∈ es, e.queued = false ∧ e.offset = o := by
  simp [openOffsets, and_assoc]

theorem mem_queuedOffsets {es : List Entry} {o : Int} :
    o ∈ queuedOffsets es ↔ ∃ e ∈ es, e.queued = true ∧ e.offset = o := by
  simp [queuedOffsets, and_assoc]

/-- How often the entry of an offset has been handed out. -/
def timesIn (es : List Entry) (o : Int) : Nat :=
  ((es.find? (·.isAt 0 o)).map (·.deliveries)).getD 0

theorem timesIn_cons (e : Entry) (es : List Entry) (o : Int) :
    timesIn (e :: es) o = if e.isAt 0 o then e.deliveries else timesIn es o := by
  rw [timesIn, List.find?_cons]
  cases e.isAt 0 o <;> rfl

theorem timesIn_eq_zero {es : List Entry} {o : Int} (h : o ∉ es.map (·.offset)) :
    timesIn es o = 0 := by
  have hNone : es.find? (·.isAt 0 o) = none := by
    refine List.find?_eq_none.mpr fun e he hAt => h ?_
    rw [Entry.isAt, Bool.and_eq_true, beq_iff_eq, beq_iff_eq] at hAt
    exact List.mem_map.mpr ⟨e, he, hAt.2⟩
  rw [timesIn, hNone]
  rfl

/-- So many hand-outs of an offset in a row, beginning with this one. -/
def handOuts (o : Int) (first n : Nat) : List Handle := (List.range' first n).map (Handle.mk 0 o)

theorem length_handOuts (o : Int) (first n : Nat) : (handOuts o first n).length = n := by
  rw [handOuts, List.length_map, List.length_range']

theorem handOuts_append (o : Int) (first n k : Nat) :
    handOuts o first n ++ handOuts o (first + n) k = handOuts o first (n + k) := by
  rw [handOuts, handOuts, handOuts, ← List.map_append, List.range'_append_1]

theorem mem_handOuts {o : Int} {first n : Nat} {h : Handle} :
    h ∈ handOuts o first n ↔ h.partition = 0 ∧ h.offset = o ∧ first ≤ h.deliveryCount ∧
      h.deliveryCount < first + n := by
  simp only [handOuts, List.mem_map, List.mem_range'_1]
  constructor
  · rintro ⟨i, hi, rfl⟩
    exact ⟨rfl, rfl, hi⟩
  · obtain ⟨partition, offset, count⟩ := h
    rintro ⟨rfl, rfl, hCount⟩
    exact ⟨count, hCount, rfl⟩

section Entering

variable {es : List Entry} {o : Int}

theorem enter_last (h : ∀ e ∈ es, e.partition = 0 ∧ e.offset < o) (payload : Option (List UInt8)) :
    enter 0 o payload es = es ++ [⟨0, o, payload, 1, false⟩] := by
  induction es with
  | nil => rfl
  | cons e es ih =>
    obtain ⟨⟨hPartition, hLess⟩, hRest⟩ := List.forall_mem_cons.mp h
    have hAt : e.isAt 0 o = false := by
      simp only [Entry.isAt, Bool.and_eq_false_iff, beq_eq_false_iff_ne]
      omega
    have hAfter : e.isAfter 0 o = false := by
      simp only [Entry.isAfter, decide_eq_false_iff_not]
      omega
    simp [enter, hAt, hAfter, ih hRest]

/-- A new entry has been handed out once. -/
theorem timesIn_enter_last {es : List Entry} {o : Int} (h : o ∉ es.map (·.offset))
    (payload : Option (List UInt8)) (o' : Int) :
    timesIn (es ++ [⟨0, o, payload, 1, false⟩]) o' = if o' = o then 1 else timesIn es o' := by
  induction es with
  | nil =>
    simp only [List.nil_append, timesIn_cons, Entry.isAt, beq_self_eq_true, Bool.true_and,
      beq_iff_eq]
    by_cases hSame : o = o'
    · rw [if_pos hSame, if_pos hSame.symm]
    · rw [if_neg hSame, if_neg (Ne.symm hSame)]
  | cons e es ih =>
    rw [List.map_cons, List.mem_cons, not_or] at h
    rw [List.cons_append, timesIn_cons, timesIn_cons, ih h.2]
    by_cases hAt : e.isAt 0 o' = true
    · have hOffset : e.offset = o' := beq_iff_eq.mp (Bool.and_eq_true_iff.mp hAt).2
      rw [if_pos hAt, if_pos hAt, if_neg]
      rintro rfl
      exact h.1 hOffset.symm
    · rw [if_neg hAt, if_neg hAt]

end Entering

section HandingOut

/-- Handing out changes an entry only in how often it was handed out and in that it is not queued
any more. -/
theorem handOutQueued_map {β : Type} {f : Entry → β} (hf : ∀ e, f e.handOut = f e) (n : Nat)
    (es : List Entry) : (handOutQueued n es).2.map f = es.map f := by
  fun_induction handOutQueued n es <;> simp_all

theorem length_handOutQueued (n : Nat) (es : List Entry) :
    (handOutQueued n es).1.length = min n (queuedOffsets es).length := by
  fun_induction handOutQueued n es <;> simp_all [queuedOffsets]

theorem mem_handOutQueued {n : Nat} {es : List Entry} {d : Delivery}
    (h : d ∈ (handOutQueued n es).1) : ∃ e ∈ es, d = e.handOut.delivery := by
  fun_induction handOutQueued n es with
  | case1 | case2 => simp at h
  | case3 n e es hQueued deliveries rest hRest ih =>
    rw [hRest] at ih
    rcases List.mem_cons.mp h with rfl | h
    · exact ⟨e, List.mem_cons_self, rfl⟩
    · obtain ⟨e', he', rfl⟩ := ih h
      exact ⟨e', List.mem_cons_of_mem _ he', rfl⟩
  | case4 n e es hQueued deliveries rest hRest ih =>
    rw [hRest] at ih
    obtain ⟨e', he', rfl⟩ := ih h
    exact ⟨e', List.mem_cons_of_mem _ he', rfl⟩

theorem handOutQueued_queued (n : Nat) (es : List Entry) :
    Delivery.offsets (handOutQueued n es).1 ++ queuedOffsets (handOutQueued n es).2
      = queuedOffsets es := by
  fun_induction handOutQueued n es <;>
    simp_all [queuedOffsets, Entry.handOut, Entry.delivery, Delivery.ofMessage]

theorem handOutQueued_open (n : Nat) (es : List Entry) :
    (openOffsets (handOutQueued n es).2).Perm
      (openOffsets es ++ Delivery.offsets (handOutQueued n es).1) := by
  fun_induction handOutQueued n es with
  | case1 | case2 => simp
  | case3 n e es hQueued deliveries rest hRest ih =>
    rw [hRest] at ih
    have hHanded : openOffsets (e.handOut :: rest) = e.offset :: openOffsets rest := by
      simp [openOffsets, Entry.handOut]
    have hOpen : openOffsets (e :: es) = openOffsets es := by
      simp [openOffsets, hQueued]
    rw [hHanded, hOpen, Delivery.offsets_cons]
    exact (ih.cons _).trans List.perm_middle.symm
  | case4 n e es hQueued deliveries rest hRest ih =>
    rw [hRest] at ih
    have hOpen : ∀ es, openOffsets (e :: es) = e.offset :: openOffsets es := by
      simp [openOffsets, hQueued]
    rw [hOpen, hOpen]
    exact ih.cons _

theorem handOutQueued_other {es : List Entry} {o : Int} (h : o ∉ es.map (·.offset)) (n : Nat) :
    Delivery.handlesAt o (handOutQueued n es).1 = [] := by
  rw [Delivery.handlesAt_eq_nil]
  intro hIn
  obtain ⟨d, hd, hOffset⟩ := List.mem_map.mp hIn
  obtain ⟨e, he, rfl⟩ := mem_handOutQueued hd
  exact h (List.mem_map.mpr ⟨e, he, hOffset⟩)

/-- The deliveries of an offset go on from where its entry stands. -/
theorem handOutQueued_times {n : Nat} {es : List Entry} (hPartition : ∀ e ∈ es, e.partition = 0)
    (hNodup : (es.map (·.offset)).Nodup) (o : Int) :
    ∃ k, timesIn (handOutQueued n es).2 o = timesIn es o + k ∧
      Delivery.handlesAt o (handOutQueued n es).1 = handOuts o (timesIn es o + 1) k := by
  fun_induction handOutQueued n es with
  | case1 | case2 => exact ⟨0, rfl, rfl⟩
  | case3 n e es hQueued deliveries rest hRest ih =>
    obtain ⟨hZero, hZeros⟩ := List.forall_mem_cons.mp hPartition
    obtain ⟨hFresh, hRestNodup⟩ := List.nodup_cons.mp hNodup
    obtain ⟨k, hTimes, hHandles⟩ := ih hZeros hRestNodup
    have hOthers := handOutQueued_other hFresh n
    rw [hRest] at hTimes hHandles hOthers
    have hSame : e.handOut.isAt 0 o = e.isAt 0 o := rfl
    rw [timesIn_cons, timesIn_cons, hSame]
    by_cases ho : e.offset = o
    · have hAt : e.isAt 0 o = true := by simp [Entry.isAt, hZero, ho]
      refine ⟨1, by rw [if_pos hAt, if_pos hAt]; rfl, ?_⟩
      rw [if_pos hAt]
      obtain ⟨partition, offset, payload, count, queued⟩ := e
      obtain rfl : partition = 0 := hZero
      obtain rfl : offset = o := ho
      simpa [Delivery.handlesAt, Entry.delivery, Entry.handOut, Delivery.ofMessage, handOuts]
        using hOthers
    · have hAt : e.isAt 0 o = false := by simp [Entry.isAt, ho]
      refine ⟨k, ?_, ?_⟩
      · simpa [hAt] using hTimes
      · simpa [hAt, Delivery.handlesAt, Entry.delivery, Entry.handOut, Delivery.ofMessage, ho]
          using hHandles
  | case4 n e es hQueued deliveries rest hRest ih =>
    obtain ⟨hZero, hZeros⟩ := List.forall_mem_cons.mp hPartition
    obtain ⟨hFresh, hRestNodup⟩ := List.nodup_cons.mp hNodup
    obtain ⟨k, hTimes, hHandles⟩ := ih hZeros hRestNodup
    have hOthers := handOutQueued_other hFresh (n + 1)
    rw [hRest] at hTimes hHandles hOthers
    rw [timesIn_cons, timesIn_cons]
    by_cases hAt : e.isAt 0 o = true
    · obtain rfl : e.offset = o := beq_iff_eq.mp (Bool.and_eq_true_iff.mp hAt).2
      exact ⟨0, by rw [if_pos hAt, if_pos hAt]; rfl, hOthers⟩
    · rw [if_neg hAt, if_neg hAt]
      exact ⟨k, hTimes, hHandles⟩

end HandingOut

section Settling

def isSettled (hs : List Handle) (e : Entry) : Bool := hs.any fun h => e.isAt h.partition h.offset

def acknowledge (hs : List Handle) (es : List Entry) : List Entry :=
  es.filter fun e => !isSettled hs e

def giveBack (hs : List Handle) (es : List Entry) : List Entry :=
  es.map fun e => if isSettled hs e then { e with queued := true } else e

variable {hs : List Handle} {es : List Entry} (hHandles : ∀ h ∈ hs, h.partition = 0)
  (hEntries : ∀ e ∈ es, e.partition = 0) {o : Int}

include hHandles in
theorem isSettled_iff {e : Entry} (he : e.partition = 0) :
    isSettled hs e = true ↔ e.offset ∈ hs.map (·.offset) := by
  simp only [isSettled, List.any_eq_true, List.mem_map, Entry.isAt, Bool.and_eq_true, beq_iff_eq]
  constructor
  · rintro ⟨h, hh, -, hOffset⟩
    exact ⟨h, hh, hOffset.symm⟩
  · rintro ⟨h, hh, hOffset⟩
    exact ⟨h, hh, he.trans (hHandles h hh).symm, hOffset.symm⟩

include hHandles in
theorem timesIn_acknowledge (ho : o ∉ hs.map (·.offset)) :
    timesIn (acknowledge hs es) o = timesIn es o := by
  have hSame : ∀ e : Entry, (!isSettled hs e && e.isAt 0 o) = e.isAt 0 o := by
    intro e
    cases hAt : e.isAt 0 o with
    | false => exact Bool.and_false _
    | true =>
      simp only [Entry.isAt, Bool.and_eq_true, beq_iff_eq] at hAt
      have hNot : ¬ isSettled hs e = true := by
        rwa [isSettled_iff hHandles hAt.1, hAt.2]
      simp [hNot]
  rw [timesIn, acknowledge, List.find?_filter, timesIn]
  congr 3
  funext e
  simpa using hSame e

theorem timesIn_giveBack (hs : List Handle) (es : List Entry) (o : Int) :
    timesIn (giveBack hs es) o = timesIn es o := by
  induction es with
  | nil => rfl
  | cons e es ih =>
    rw [giveBack, List.map_cons, timesIn_cons, ← giveBack, ih, timesIn_cons]
    split <;> rfl

include hHandles hEntries

theorem mem_acknowledge {e : Entry} :
    e ∈ acknowledge hs es ↔ e ∈ es ∧ e.offset ∉ hs.map (·.offset) := by
  rw [acknowledge, List.mem_filter]
  refine and_congr_right fun he => ?_
  rw [← isSettled_iff hHandles (hEntries e he)]
  simp

theorem mem_openOffsets_acknowledge :
    o ∈ openOffsets (acknowledge hs es) ↔ o ∈ openOffsets es ∧ o ∉ hs.map (·.offset) := by
  simp only [mem_openOffsets, mem_acknowledge hHandles hEntries]
  constructor
  · rintro ⟨e, ⟨he, hOffset⟩, hOpen, rfl⟩
    exact ⟨⟨e, he, hOpen, rfl⟩, hOffset⟩
  · rintro ⟨⟨e, he, hOpen, rfl⟩, hOffset⟩
    exact ⟨e, ⟨he, hOffset⟩, hOpen, rfl⟩

theorem mem_queuedOffsets_acknowledge :
    o ∈ queuedOffsets (acknowledge hs es) ↔ o ∈ queuedOffsets es ∧ o ∉ hs.map (·.offset) := by
  simp only [mem_queuedOffsets, mem_acknowledge hHandles hEntries]
  constructor
  · rintro ⟨e, ⟨he, hOffset⟩, hQueued, rfl⟩
    exact ⟨⟨e, he, hQueued, rfl⟩, hOffset⟩
  · rintro ⟨⟨e, he, hQueued, rfl⟩, hOffset⟩
    exact ⟨e, ⟨he, hOffset⟩, hQueued, rfl⟩

theorem mem_openOffsets_giveBack :
    o ∈ openOffsets (giveBack hs es) ↔ o ∈ openOffsets es ∧ o ∉ hs.map (·.offset) := by
  simp only [mem_openOffsets, giveBack, List.mem_map]
  constructor
  · rintro ⟨e', ⟨e, he, rfl⟩, hOpen, hOffset⟩
    have hSettled := isSettled_iff hHandles (hEntries e he)
    split at hOpen
    · cases hOpen
    · rename_i hNot
      rw [if_neg hNot] at hOffset
      subst hOffset
      exact ⟨⟨e, he, hOpen, rfl⟩, fun h => hNot (hSettled.mpr (List.mem_map.mpr h))⟩
  · rintro ⟨⟨e, he, hOpen, rfl⟩, hOffset⟩
    have hNot : ¬ isSettled hs e = true := by
      rwa [isSettled_iff hHandles (hEntries e he), List.mem_map]
    exact ⟨e, ⟨e, he, if_neg hNot⟩, hOpen, rfl⟩

theorem mem_queuedOffsets_giveBack :
    o ∈ queuedOffsets (giveBack hs es) ↔
      o ∈ queuedOffsets es ∨ o ∈ es.map (·.offset) ∧ o ∈ hs.map (·.offset) := by
  simp only [mem_queuedOffsets]
  constructor
  · rintro ⟨e', he', hQueued, rfl⟩
    obtain ⟨e, he, rfl⟩ := List.mem_map.mp he'
    split at hQueued
    · rename_i hSettled
      rw [if_pos hSettled]
      exact .inr ⟨List.mem_map.mpr ⟨e, he, rfl⟩,
        (isSettled_iff hHandles (hEntries e he)).mp hSettled⟩
    · rename_i hNot
      rw [if_neg hNot]
      exact .inl ⟨e, he, hQueued, rfl⟩
  · rintro (⟨e, he, hQueued, rfl⟩ | ⟨hEntry, hHandle⟩)
    · refine ⟨_, List.mem_map_of_mem he, ?_⟩
      split <;> exact ⟨by simp [hQueued], rfl⟩
    · obtain ⟨e, he, rfl⟩ := List.mem_map.mp hEntry
      refine ⟨_, List.mem_map_of_mem he, ?_⟩
      rw [if_pos ((isSettled_iff hHandles (hEntries e he)).mpr hHandle)]
      exact ⟨rfl, rfl⟩

end Settling

theorem giveBack_map {β : Type} {f : Entry → β} (hf : ∀ e q, f { e with queued := q } = f e)
    (hs : List Handle) (es : List Entry) : (giveBack hs es).map f = es.map f := by
  rw [giveBack, List.map_map]
  refine List.map_congr_left fun e _ => ?_
  simp only [Function.comp_apply]
  split
  · exact hf e true
  · rfl

end EventIngest.Ledger
