import EventIngest.Settlement
/-!
# What a worker does, and the calls it makes for it

The calls in a journal come in groups that belong together: a fetch with its answer, a message
without an event and the calls that settle it, a batch with all its attempts and the settlement of
its messages. Such a group is a deed. The answers that a deed gets are part of it, so that a deed
looks the same whatever single calls answer.
-/
namespace EventIngest

/-- What a call to a source that settles something answers. -/
abbrev Answer := Except SourceError Unit

namespace Happening

@[simp] def isCall : Happening → Bool
  | .notice _ => false
  | _ => true

@[simp] def deliveries : Happening → List Delivery
  | .fetched (.ok deliveries) => deliveries
  | _ => []

@[simp] def storedRows? : Happening → Option (List Row)
  | .inserted rows (.ok _) => some rows
  | _ => none

@[simp] def failedSize? : Happening → Option Nat
  | .notice (.batchReturned size _ _) => some size
  | _ => none

end Happening

inductive Verdict where
  | acknowledged
  | returned
  deriving DecidableEq, Repr

@[simp] def Happening.settlement? : Happening → Option (Verdict × Handle)
  | .ack h _ => some (.acknowledged, h)
  | .nak h _ => some (.returned, h)
  | _ => none

namespace Journal

def calls (journal : List Happening) : List Happening := journal.filter Happening.isCall

def arrivals (journal : List Happening) : List Delivery := journal.flatMap Happening.deliveries

def settlements (journal : List Happening) : List (Verdict × Handle) :=
  journal.filterMap Happening.settlement?

def stored (journal : List Happening) : List (List Row) := journal.filterMap Happening.storedRows?

def failedSizes (journal : List Happening) : List Nat := journal.filterMap Happening.failedSize?

@[simp] theorem calls_nil : calls [] = [] := rfl

@[simp] theorem calls_cons (h : Happening) (journal : List Happening) :
    calls (h :: journal) = if h.isCall then h :: calls journal else calls journal :=
  List.filter_cons

@[simp] theorem calls_append (a b : List Happening) : calls (a ++ b) = calls a ++ calls b :=
  List.filter_append ..

@[simp] theorem arrivals_nil : arrivals [] = [] := rfl

@[simp] theorem arrivals_cons (h : Happening) (journal : List Happening) :
    arrivals (h :: journal) = h.deliveries ++ arrivals journal := rfl

@[simp] theorem arrivals_append (a b : List Happening) :
    arrivals (a ++ b) = arrivals a ++ arrivals b := List.flatMap_append

@[simp] theorem settlements_nil : settlements [] = [] := rfl

@[simp] theorem settlements_cons (h : Happening) (journal : List Happening) :
    settlements (h :: journal) = h.settlement?.toList ++ settlements journal := by
  cases hh : h.settlement? with
  | none => exact List.filterMap_cons_none hh
  | some _ => exact List.filterMap_cons_some hh

@[simp] theorem settlements_append (a b : List Happening) :
    settlements (a ++ b) = settlements a ++ settlements b := List.filterMap_append

@[simp] theorem stored_nil : stored [] = [] := rfl

@[simp] theorem stored_cons (h : Happening) (journal : List Happening) :
    stored (h :: journal) = h.storedRows?.toList ++ stored journal := by
  cases hh : h.storedRows? with
  | none => exact List.filterMap_cons_none hh
  | some _ => exact List.filterMap_cons_some hh

@[simp] theorem stored_append (a b : List Happening) : stored (a ++ b) = stored a ++ stored b :=
  List.filterMap_append

@[simp] theorem failedSizes_nil : failedSizes [] = [] := rfl

@[simp] theorem failedSizes_cons (h : Happening) (journal : List Happening) :
    failedSizes (h :: journal) = h.failedSize?.toList ++ failedSizes journal := by
  cases hh : h.failedSize? with
  | none => exact List.filterMap_cons_none hh
  | some _ => exact List.filterMap_cons_some hh

@[simp] theorem failedSizes_append (a b : List Happening) :
    failedSizes (a ++ b) = failedSizes a ++ failedSizes b := List.filterMap_append

theorem arrivals_calls (journal : List Happening) : arrivals (calls journal) = arrivals journal := by
  induction journal with
  | nil => rfl
  | cons h journal ih =>
    cases h with
    | notice n => exact ih
    | _ => exact congrArg (_ ++ ·) ih

/-- A reading that passes over notices reads only the calls. -/
theorem filterMap_calls {β : Type} {f : Happening → Option β} (hNotice : ∀ n, f (.notice n) = none)
    (journal : List Happening) : (calls journal).filterMap f = journal.filterMap f := by
  rw [calls, List.filterMap_filter]
  congr 1
  funext call
  cases call with
  | notice n => simpa using (hNotice n).symm
  | _ => rfl

theorem settlements_calls (journal : List Happening) :
    settlements (calls journal) = settlements journal := filterMap_calls (fun _ => rfl) journal

theorem stored_calls (journal : List Happening) : stored (calls journal) = stored journal :=
  filterMap_calls (fun _ => rfl) journal

theorem mem_of_mem_calls {journal : List Happening} {h : Happening} (hh : h ∈ calls journal) :
    h ∈ journal := (List.mem_filter.mp hh).1

end Journal

namespace Delivery

/-- A delivery with an event, as it is buffered. -/
def parcel? (d : Delivery) : Option Parcel :=
  match d.content with
  | .ok event => some ⟨event, d.handle⟩
  | .error _ => none

/-- A delivery without an event, as it is rejected. -/
def refusal? (d : Delivery) : Option (Handle × Malformed) :=
  match d.content with
  | .ok _ => none
  | .error malformed => some (d.handle, malformed)

@[simp] theorem parcel?_ok (h : Handle) (e : Event) : parcel? ⟨h, .ok e⟩ = some ⟨e, h⟩ := rfl

@[simp] theorem parcel?_error (h : Handle) (m : Malformed) : parcel? ⟨h, .error m⟩ = none := rfl

@[simp] theorem refusal?_ok (h : Handle) (e : Event) : refusal? ⟨h, .ok e⟩ = none := rfl

@[simp] theorem refusal?_error (h : Handle) (m : Malformed) :
    refusal? ⟨h, .error m⟩ = some (h, m) := rfl

theorem parcel?_eq_some {d : Delivery} {p : Parcel} (h : d.parcel? = some p) :
    d = ⟨p.handle, .ok p.event⟩ := by
  obtain ⟨handle, content⟩ := d
  cases content with
  | ok event =>
    obtain rfl := Option.some.inj h
    rfl
  | error malformed => cases h

theorem refusal?_eq_some {d : Delivery} {h : Handle} {m : Malformed}
    (hRefusal : d.refusal? = some (h, m)) : d = ⟨h, .error m⟩ := by
  obtain ⟨handle, content⟩ := d
  cases content with
  | ok event => cases hRefusal
  | error malformed =>
    cases hRefusal
    rfl

end Delivery

namespace Batch

def rows (b : Batch) : List Row := b.map fun p => .ofEvent p.event

end Batch

/-- Attempts to insert rows that ended in these errors. -/
def failedAttempts (rows : List Row) (errors : List StoreError) : List Happening :=
  errors.flatMap fun e => [.insert rows, .inserted rows (.error e)]

inductive Deed where
  | ask (max : Nat) (wait : Duration)
  | receive (deliveries : List Delivery)
  | miss (e : SourceError)
  | stall
  | accept (p : Parcel)
  /-- A message without an event is settled; it is put aside first if there is an answer to that. -/
  | reject (h : Handle) (m : Malformed) (letter : Option Answer) (answer : Answer)
  | commit (answer : Answer)
  /-- A batch is stored after some failures, and each of its messages is acknowledged. -/
  | store (parcels : List (Parcel × Answer)) (failures : List StoreError) (commit : Answer)
  /-- A batch could not be stored, and each of its messages is given back. -/
  | giveUp (parcels : List (Parcel × Answer)) (failures : List StoreError) (commit : Answer)

namespace Deed

/-- A message is acknowledged if it could be put aside, and is given back otherwise. -/
def rejection (h : Handle) (m : Malformed) (letter : Option Answer) (answer : Answer) :
    List Happening :=
  match letter with
  | none => [.nak h answer]
  | some (.ok u) => [.deadLetter h m.raw m.reason.message (.ok u), .ack h answer]
  | some (.error e) => [.deadLetter h m.raw m.reason.message (.error e), .nak h answer]

def batchOf (parcels : List (Parcel × Answer)) : Batch := parcels.map Prod.fst

def calls : Deed → List Happening
  | ask max wait => [.fetch max wait]
  | receive deliveries => [.fetched (.ok deliveries)]
  | miss e => [.fetched (.error e)]
  | stall => [.fetchStalled]
  | accept _ => []
  | reject h m letter answer => rejection h m letter answer
  | commit answer => [.commit answer]
  | store parcels failures answer =>
    let rows := (batchOf parcels).rows
    failedAttempts rows failures ++ [.insert rows, .inserted rows (.ok ())]
      ++ parcels.map (fun p => .ack p.1.handle p.2) ++ [.commit answer]
  | giveUp parcels failures answer =>
    failedAttempts (batchOf parcels).rows failures
      ++ parcels.map (fun p => .nak p.1.handle p.2) ++ [.commit answer]

def arrivals : Deed → List Delivery
  | receive deliveries => deliveries
  | _ => []

def batch : Deed → Batch
  | store parcels .. | giveUp parcels .. => batchOf parcels
  | _ => []

def storedBatch? : Deed → Option Batch
  | store parcels .. => some (batchOf parcels)
  | _ => none

def refusal? : Deed → Option (Handle × Malformed)
  | reject h m .. => some (h, m)
  | _ => none

def handles (d : Deed) : List Handle := d.batch.handles ++ d.refusal?.toList.map Prod.fst

def failedSize? : Deed → Option Nat
  | giveUp parcels .. => some (batchOf parcels).length
  | _ => none

def tally (c : Counters) : Deed → Counters
  | accept _ => c.addProcessed 1
  | reject .. => c.addErrors 1
  | store parcels .. => c.addInserted (batchOf parcels).length
  | giveUp parcels .. => c.addErrors (batchOf parcels).length
  | _ => c

def verdict : Deed → Verdict
  | store .. | reject _ _ (some (.ok _)) _ => .acknowledged
  | _ => .returned

section Journal

open Journal

@[simp] theorem failedAttempts_cons (rows : List Row) (e : StoreError) (es : List StoreError) :
    failedAttempts rows (e :: es)
      = .insert rows :: .inserted rows (.error e) :: failedAttempts rows es := rfl

@[simp] theorem failedAttempts_readings (rows : List Row) (failures : List StoreError) :
    Journal.arrivals (failedAttempts rows failures) = [] ∧
    settlements (failedAttempts rows failures) = [] ∧
    stored (failedAttempts rows failures) = [] := by
  induction failures with
  | nil => exact ⟨rfl, rfl, rfl⟩
  | cons e es ih => simpa using ih

/-- A reading that passes over failed attempts. -/
theorem failedAttempts_filterMap {β : Type} {f : Happening → Option β}
    (hInsert : ∀ rows, f (.insert rows) = none)
    (hFailed : ∀ rows e, f (.inserted rows (.error e)) = none) (rows : List Row)
    (failures : List StoreError) : (failedAttempts rows failures).filterMap f = [] := by
  induction failures with
  | nil => rfl
  | cons e es ih => simp [hInsert, hFailed, ih]

theorem settling_readings {entry : Handle → Answer → Happening} {verdict : Verdict}
    (hEntry : ∀ h answer, (entry h answer).deliveries = [] ∧
      (entry h answer).settlement? = some (verdict, h) ∧ (entry h answer).storedRows? = none)
    (parcels : List (Parcel × Answer)) :
    Journal.arrivals (parcels.map fun p => entry p.1.handle p.2) = [] ∧
    settlements (parcels.map fun p => entry p.1.handle p.2)
      = (batchOf parcels).handles.map (verdict, ·) ∧
    stored (parcels.map fun p => entry p.1.handle p.2) = [] := by
  induction parcels with
  | nil => exact ⟨rfl, rfl, rfl⟩
  | cons p ps ih =>
    obtain ⟨hDeliveries, hSettlement, hStored⟩ := hEntry p.1.handle p.2
    refine ⟨?_, ?_, ?_⟩
    · rw [List.map_cons, arrivals_cons, hDeliveries, ih.1, List.append_nil]
    · rw [List.map_cons, settlements_cons, hSettlement, ih.2.1]
      rfl
    · rw [List.map_cons, stored_cons, hStored, ih.2.2]
      rfl

theorem acks_readings (parcels : List (Parcel × Answer)) :
    Journal.arrivals (parcels.map fun p => .ack p.1.handle p.2) = [] ∧
    settlements (parcels.map fun p => .ack p.1.handle p.2)
      = (batchOf parcels).handles.map (.acknowledged, ·) ∧
    stored (parcels.map fun p => .ack p.1.handle p.2) = [] :=
  settling_readings (fun _ _ => ⟨rfl, rfl, rfl⟩) parcels

theorem naks_readings (parcels : List (Parcel × Answer)) :
    Journal.arrivals (parcels.map fun p => .nak p.1.handle p.2) = [] ∧
    settlements (parcels.map fun p => .nak p.1.handle p.2)
      = (batchOf parcels).handles.map (.returned, ·) ∧
    stored (parcels.map fun p => .nak p.1.handle p.2) = [] :=
  settling_readings (fun _ _ => ⟨rfl, rfl, rfl⟩) parcels

theorem arrivals_calls (d : Deed) : Journal.arrivals d.calls = d.arrivals := by
  cases d with
  | reject h m letter answer => match letter with | none | some (.ok _) | some (.error _) => rfl
  | _ => simp [calls, arrivals, acks_readings, naks_readings]

/-- A deed settles each of its messages by one call, and all in the same way. -/
theorem settlements_calls (d : Deed) : settlements d.calls = d.handles.map (d.verdict, ·) := by
  cases d with
  | reject h m letter answer => match letter with | none | some (.ok _) | some (.error _) => rfl
  | store | giveUp =>
    simp [calls, handles, verdict, batch, refusal?, acks_readings, naks_readings]
  | _ => rfl

theorem stored_calls (d : Deed) : stored d.calls = (d.storedBatch?.map Batch.rows).toList := by
  cases d with
  | reject h m letter answer => match letter with | none | some (.ok _) | some (.error _) => rfl
  | _ => simp [calls, storedBatch?, acks_readings, naks_readings]

end Journal

def allArrivals (deeds : List Deed) : List Delivery := deeds.flatMap arrivals

def allBatches (deeds : List Deed) : Batch := deeds.flatMap batch

def allRefusals (deeds : List Deed) : List (Handle × Malformed) := deeds.filterMap refusal?

@[simp] theorem allArrivals_append (a b : List Deed) :
    allArrivals (a ++ b) = allArrivals a ++ allArrivals b := List.flatMap_append

@[simp] theorem allBatches_append (a b : List Deed) :
    allBatches (a ++ b) = allBatches a ++ allBatches b := List.flatMap_append

@[simp] theorem allRefusals_append (a b : List Deed) :
    allRefusals (a ++ b) = allRefusals a ++ allRefusals b := List.filterMap_append

@[simp] theorem allArrivals_singleton (d : Deed) : allArrivals [d] = d.arrivals :=
  List.append_nil _

@[simp] theorem allBatches_singleton (d : Deed) : allBatches [d] = d.batch := List.append_nil _

@[simp] theorem allRefusals_singleton (d : Deed) : allRefusals [d] = d.refusal?.toList := by
  cases h : d.refusal? <;> simp [allRefusals, h]

def storedBatches (deeds : List Deed) : List Batch := deeds.filterMap storedBatch?

@[simp] theorem storedBatches_append (a b : List Deed) :
    storedBatches (a ++ b) = storedBatches a ++ storedBatches b := List.filterMap_append

@[simp] theorem storedBatches_singleton (d : Deed) : storedBatches [d] = d.storedBatch?.toList := by
  cases h : d.storedBatch? <;> simp [storedBatches, h]

theorem mem_allBatches_of_stored {deeds : List Deed} {p : Parcel}
    (h : p ∈ (storedBatches deeds).flatten) : p ∈ allBatches deeds := by
  obtain ⟨b, hb, hp⟩ := List.mem_flatten.mp h
  obtain ⟨d, hd, hStored⟩ := List.mem_filterMap.mp hb
  refine List.mem_flatMap.mpr ⟨d, hd, ?_⟩
  cases d with
  | store parcels failures answer =>
    obtain rfl := Option.some.inj hStored
    exact hp
  | _ => cases hStored

theorem arrivals_flatMap_calls (deeds : List Deed) :
    Journal.arrivals (deeds.flatMap calls) = allArrivals deeds := by
  induction deeds with
  | nil => rfl
  | cons d deeds ih =>
    rw [List.flatMap_cons, Journal.arrivals_append, arrivals_calls, ih]
    rfl

theorem stored_flatMap_calls (deeds : List Deed) :
    Journal.stored (deeds.flatMap calls) = (storedBatches deeds).map Batch.rows := by
  induction deeds with
  | nil => rfl
  | cons d deeds ih =>
    have hSplit := storedBatches_append [d] deeds
    rw [List.singleton_append, storedBatches_singleton] at hSplit
    rw [List.flatMap_cons, Journal.stored_append, stored_calls, ih, hSplit, List.map_append]
    cases d.storedBatch? <;> rfl

end Deed

namespace Source

variable {σ φ : Type}

/-- Makes a call for each parcel in turn, and keeps the answers. -/
def each (call : σ → Handle → Answer × σ) : Batch → σ → List (Parcel × Answer) × σ
  | [], s => ([], s)
  | p :: ps, s =>
    let first := call s p.handle
    let rest := each call ps first.2
    ((p, first.1) :: rest.1, rest.2)

@[simp] theorem batchOf_each (call : σ → Handle → Answer × σ) (b : Batch) (s : σ) :
    Deed.batchOf (each call b s).1 = b := by
  induction b generalizing s with
  | nil => rfl
  | cons p ps ih =>
    simp only [each, Deed.batchOf, List.map_cons] at ih ⊢
    rw [ih]

/-- Settles a message without an event, and tells what the calls answered. -/
def refuse (intake : Source σ φ) (maxDeliver : Nat) (h : Handle) (m : Malformed) (s : σ) :
    Option Answer × Answer × σ :=
  if Desk.isSpent maxDeliver h then
    let letter := intake.deadLetter s h m.raw m.reason.message
    match letter.1 with
    | .ok _ => (some letter.1, intake.ack letter.2 h)
    | .error _ => (some letter.1, intake.nak letter.2 h)
  else (none, intake.nak s h)

theorem refuse_cases (intake : Source σ φ) (maxDeliver : Nat) (h : Handle) (m : Malformed) (s : σ) :
    let letter := intake.deadLetter s h m.raw m.reason.message
    (refuse intake maxDeliver h m s = (none, intake.nak s h)) ∨
    (∃ u, letter.1 = .ok u ∧
      refuse intake maxDeliver h m s = (some (.ok u), intake.ack letter.2 h)) ∨
    (∃ e, letter.1 = .error e ∧
      refuse intake maxDeliver h m s = (some (.error e), intake.nak letter.2 h)) := by
  simp only [refuse]
  split
  · split
    · rename_i u hLetter
      exact .inr (.inl ⟨u, hLetter, by rw [hLetter]⟩)
    · rename_i e hLetter
      exact .inr (.inr ⟨e, hLetter, by rw [hLetter]⟩)
  · exact .inl rfl

structure Keeps (intake : Source σ φ) (P : σ → Prop) : Prop where
  fetch : ∀ s max wait, P s → P (intake.fetch s max wait).2
  resume : ∀ s call, P s → P (intake.resume s call).2
  ack : ∀ s h, P s → P (intake.ack s h).2
  nak : ∀ s h, P s → P (intake.nak s h).2
  commit : ∀ s, P s → P (intake.commit s).2
  deadLetter : ∀ s h raw reason, P s → P (intake.deadLetter s h raw reason).2

theorem each_keeps {call : σ → Handle → Answer × σ} {P : σ → Prop}
    (hCall : ∀ s h, P s → P (call s h).2) (b : Batch) {s : σ} (h : P s) :
    P (each call b s).2 := by
  induction b generalizing s with
  | nil => exact h
  | cons p ps ih => exact ih (hCall s p.handle h)

theorem Keeps.refuse {intake : Source σ φ} {P : σ → Prop} (hKeeps : intake.Keeps P)
    (maxDeliver : Nat) (h : Handle) (m : Malformed) {s : σ} (hs : P s) :
    P (intake.refuse maxDeliver h m s).2.2 := by
  have hLetter := hKeeps.deadLetter s h m.raw m.reason.message hs
  obtain hRefuse | ⟨_, _, hRefuse⟩ | ⟨_, _, hRefuse⟩ := intake.refuse_cases maxDeliver h m s
  · rw [hRefuse]
    exact hKeeps.nak s h hs
  · rw [hRefuse]
    exact hKeeps.ack _ h hLetter
  · rw [hRefuse]
    exact hKeeps.nak _ h hLetter

end Source

namespace Desk

open Journal

variable {σ φ : Type} (intake : Source σ φ)

@[simp] theorem record_source (d : Desk σ) (h : Happening) : (d.record h).source = d.source := rfl

@[simp] theorem record_calls (d : Desk σ) (h : Happening) :
    calls (d.record h).journal = calls d.journal ++ calls [h] := calls_append ..

@[simp] theorem note_source (d : Desk σ) (n : Notice) : (d.note n).source = d.source := rfl

@[simp] theorem note_calls (d : Desk σ) (n : Notice) :
    calls (d.note n).journal = calls d.journal := by
  simp [note]

@[simp] theorem check_source (d : Desk σ) (answer : Answer) (failed : SourceError → Notice) :
    (d.check answer failed).source = d.source := by
  cases answer <;> rfl

@[simp] theorem check_calls (d : Desk σ) (answer : Answer) (failed : SourceError → Notice) :
    calls (d.check answer failed).journal = calls d.journal := by
  cases answer with
  | ok _ => rfl
  | error e => exact note_calls d _

@[simp] theorem ack_source (failed : Handle → SourceError → Notice) (d : Desk σ) (h : Handle) :
    (d.ack intake failed h).source = (intake.ack d.source h).2 := by
  simp [ack]

@[simp] theorem ack_calls (failed : Handle → SourceError → Notice) (d : Desk σ) (h : Handle) :
    calls (d.ack intake failed h).journal
      = calls d.journal ++ [.ack h (intake.ack d.source h).1] := by
  simp [ack]

@[simp] theorem nak_source (d : Desk σ) (h : Handle) :
    (d.nak intake h).source = (intake.nak d.source h).2 := by
  simp [nak]

@[simp] theorem nak_calls (d : Desk σ) (h : Handle) :
    calls (d.nak intake h).journal = calls d.journal ++ [.nak h (intake.nak d.source h).1] := by
  simp [nak]

@[simp] theorem commit_source (d : Desk σ) :
    (d.commit intake).source = (intake.commit d.source).2 := by
  simp [commit]

@[simp] theorem commit_calls (d : Desk σ) :
    calls (d.commit intake).journal = calls d.journal ++ [.commit (intake.commit d.source).1] := by
  simp [commit]

theorem foldl_each {settle : Desk σ → Handle → Desk σ} {call : σ → Handle → Answer × σ}
    {entry : Handle → Answer → Happening}
    (hsource : ∀ d h, (settle d h).source = (call d.source h).2)
    (hcalls : ∀ d h, calls (settle d h).journal = calls d.journal ++ [entry h (call d.source h).1])
    (b : Batch) (d : Desk σ) :
    (b.handles.foldl settle d).source = (Source.each call b d.source).2 ∧
    calls (b.handles.foldl settle d).journal
      = calls d.journal ++ (Source.each call b d.source).1.map fun p => entry p.1.handle p.2 := by
  induction b generalizing d with
  | nil => simp [Batch.handles, Source.each]
  | cons p ps ih =>
    obtain ⟨ihSource, ihCalls⟩ := ih (settle d p.handle)
    simp only [Batch.handles, List.map_cons, List.foldl_cons] at ihSource ihCalls ⊢
    rw [ihSource, ihCalls, hsource, hcalls]
    simp [Source.each]

theorem ackAll_source (d : Desk σ) (b : Batch) :
    (d.ackAll intake b).source = (intake.commit (Source.each intake.ack b d.source).2).2 := by
  simp [ackAll, (foldl_each (ack_source intake _) (ack_calls intake .ackFailed) b d).1]

theorem ackAll_calls (d : Desk σ) (b : Batch) :
    calls (d.ackAll intake b).journal
      = calls d.journal ++ (Source.each intake.ack b d.source).1.map (fun p => .ack p.1.handle p.2)
        ++ [.commit (intake.commit (Source.each intake.ack b d.source).2).1] := by
  have h := foldl_each (ack_source intake _) (ack_calls intake .ackFailed) b d
  simp [ackAll, h.1, h.2]

theorem nakAll_source (d : Desk σ) (b : Batch) (failure : InsertError) :
    (d.nakAll intake b failure).source
      = (intake.commit (Source.each intake.nak b d.source).2).2 := by
  simp [nakAll, (foldl_each (nak_source intake) (nak_calls intake) b _).1]

theorem nakAll_calls (d : Desk σ) (b : Batch) (failure : InsertError) :
    calls (d.nakAll intake b failure).journal
      = calls d.journal ++ (Source.each intake.nak b d.source).1.map (fun p => .nak p.1.handle p.2)
        ++ [.commit (intake.commit (Source.each intake.nak b d.source).2).1] := by
  have h := foldl_each (nak_source intake) (nak_calls intake) b
    (d.note (.batchReturned b.length failure.attempts failure.last))
  simp [nakAll, h.1, h.2]

theorem reject_source (maxDeliver : Nat) (d : Desk σ) (h : Handle) (m : Malformed) :
    (d.reject intake maxDeliver h m).source = (intake.refuse maxDeliver h m d.source).2.2 := by
  simp only [reject, Source.refuse]
  split
  · simp only [putAside]
    split <;> simp_all [note]
  · simp

theorem reject_calls (maxDeliver : Nat) (d : Desk σ) (h : Handle) (m : Malformed) :
    calls (d.reject intake maxDeliver h m).journal
      = calls d.journal ++ (Deed.reject h m (intake.refuse maxDeliver h m d.source).1
          (intake.refuse maxDeliver h m d.source).2.1).calls := by
  simp only [reject, Source.refuse]
  split
  · simp only [putAside]
    split <;> simp_all [Deed.calls, Deed.rejection]
  · simp [Deed.calls, Deed.rejection]

/-- A desk with the same counters and the same notes of batches that could not be stored. -/
structure SameAccount (d d' : Desk σ) : Prop where
  counters : d'.counters = d.counters
  failedSizes : failedSizes d'.journal = failedSizes d.journal

theorem SameAccount.trans {d d' d'' : Desk σ} (h : SameAccount d d') (h' : SameAccount d' d'') :
    SameAccount d d'' :=
  ⟨h'.counters.trans h.counters, h'.failedSizes.trans h.failedSizes⟩

theorem record_sameAccount (d : Desk σ) (s : σ) {h : Happening} (hNone : h.failedSize? = none) :
    SameAccount d ({ d with source := s }.record h) := by
  refine ⟨rfl, ?_⟩
  rw [record, failedSizes_append, failedSizes_cons, hNone]
  simp

theorem note_sameAccount (d : Desk σ) {n : Notice} (hNone : (Happening.notice n).failedSize? = none) :
    SameAccount d (d.note n) :=
  d.record_sameAccount d.source hNone

theorem check_sameAccount (d : Desk σ) (answer : Answer) {failed : SourceError → Notice}
    (hNone : ∀ e, (Happening.notice (failed e)).failedSize? = none) :
    SameAccount d (d.check answer failed) := by
  cases answer with
  | ok _ => exact ⟨rfl, rfl⟩
  | error e => exact d.note_sameAccount (hNone e)

section Calls

variable (d : Desk σ) (h : Handle)

/-- The call that was recorded and the note of its failure, if there is one. -/
theorem called_sameAccount (s : σ) (answer : Answer) {call : Happening}
    {failed : SourceError → Notice} (hCall : call.failedSize? = none)
    (hNone : ∀ e, (Happening.notice (failed e)).failedSize? = none) :
    SameAccount d (({ d with source := s }.record call).check answer failed) :=
  (d.record_sameAccount s hCall).trans (check_sameAccount _ answer hNone)

theorem ack_sameAccount {failed : Handle → SourceError → Notice}
    (hNone : ∀ h e, (Happening.notice (failed h e)).failedSize? = none) :
    SameAccount d (d.ack intake failed h) :=
  called_sameAccount d _ _ rfl (hNone h)

theorem nak_sameAccount : SameAccount d (d.nak intake h) :=
  called_sameAccount d _ _ rfl fun _ => rfl

theorem commit_sameAccount : SameAccount d (d.commit intake) :=
  called_sameAccount d _ _ rfl fun _ => rfl

theorem foldl_sameAccount {settle : Desk σ → Handle → Desk σ}
    (hSettle : ∀ d h, SameAccount d (settle d h)) (hs : List Handle) :
    SameAccount d (hs.foldl settle d) := by
  induction hs generalizing d with
  | nil => exact ⟨rfl, rfl⟩
  | cons h hs ih => exact (hSettle d h).trans (ih (settle d h))

theorem ackAll_account (b : Batch) :
    (d.ackAll intake b).counters = d.counters.addInserted b.length ∧
    failedSizes (d.ackAll intake b).journal = failedSizes d.journal := by
  have hAck : ∀ (d : Desk σ) h, SameAccount d (d.ack intake .ackFailed h) :=
    fun d h => ack_sameAccount intake d h fun _ _ => rfl
  have hSame := (foldl_sameAccount d hAck b.handles).trans (commit_sameAccount intake _)
  exact ⟨congrArg (Counters.addInserted · b.length) hSame.counters, hSame.failedSizes⟩

theorem nakAll_account (b : Batch) (failure : InsertError) :
    (d.nakAll intake b failure).counters = d.counters.addErrors b.length ∧
    failedSizes (d.nakAll intake b failure).journal = failedSizes d.journal ++ [b.length] := by
  have hSame := (foldl_sameAccount (d.note (.batchReturned b.length failure.attempts failure.last))
    (nak_sameAccount intake) b.handles).trans (commit_sameAccount intake _)
  refine ⟨congrArg (Counters.addErrors · b.length) hSame.counters, hSame.failedSizes.trans ?_⟩
  simp [note, record]

theorem reject_account (maxDeliver : Nat) (m : Malformed) :
    (d.reject intake maxDeliver h m).counters = d.counters.addErrors 1 ∧
    failedSizes (d.reject intake maxDeliver h m).journal = failedSizes d.journal := by
  suffices hSame : SameAccount { d with counters := d.counters.addErrors 1 }
      (d.reject intake maxDeliver h m) from ⟨hSame.counters, hSame.failedSizes⟩
  refine SameAccount.trans (note_sameAccount _ (n := .undecodable h m.reason) rfl) ?_
  simp only [reject]
  split
  · simp only [putAside]
    split
    · refine SameAccount.trans ?_ (ack_sameAccount intake _ h fun _ _ => rfl)
      exact record_sameAccount (h := .deadLetter ..) _ _ rfl
    · refine SameAccount.trans ?_ (nak_sameAccount intake _ h)
      refine SameAccount.trans ?_ (note_sameAccount _ rfl)
      exact record_sameAccount (h := .deadLetter ..) _ _ rfl
  · exact nak_sameAccount intake _ h

end Calls

end Desk

end EventIngest
