import EventIngest.Proofs.Course
import EventIngest.Source.Queue
import EventIngest.Store.Planned
/-!
# Every delivery is settled exactly once

The deeds of a worker account for all that it was handed: the events of a fetch go into batches in
the order in which they came, and the messages without an event are rejected in that order. At the
end of a run nothing is left over. It does not matter what the source, the store or any single call
answer.
-/
namespace EventIngest

open Journal

namespace Deed

/-- No batch and no rejection comes before the fetch that brought its messages. -/
def InOrder (deeds : List Deed) : Prop :=
  ∀ before, before <+: deeds →
    allBatches before <+: (allArrivals before).filterMap Delivery.parcel? ∧
    allRefusals before <+: (allArrivals before).filterMap Delivery.refusal?

theorem InOrder.concat {deeds : List Deed} (h : InOrder deeds) {d : Deed}
    (hBatches : allBatches (deeds ++ [d])
      <+: (allArrivals (deeds ++ [d])).filterMap Delivery.parcel?)
    (hRefusals : allRefusals (deeds ++ [d])
      <+: (allArrivals (deeds ++ [d])).filterMap Delivery.refusal?) :
    InOrder (deeds ++ [d]) := by
  intro before hBefore
  rcases List.prefix_concat_iff.mp hBefore with rfl | hBefore
  · exact ⟨hBatches, hRefusals⟩
  · exact h before hBefore

end Deed

open Deed

/-- What arrived is what was dealt with, followed by what the worker still has. -/
structure Custody.Accounted {φ : Type} (c : Custody φ) (deeds : List Deed) : Prop where
  parcels : (allArrivals deeds).filterMap Delivery.parcel?
    = allBatches deeds ++ c.held ++ c.coming.filterMap Delivery.parcel?
  refusals : (allArrivals deeds).filterMap Delivery.refusal?
    = allRefusals deeds ++ c.coming.filterMap Delivery.refusal?
  order : InOrder deeds

namespace Custody.Accounted

variable {σ φ : Type} {c c' : Custody φ} {deeds : List Deed} {d : Deed}

theorem start : Accounted ({} : Custody φ) [] := by
  refine ⟨rfl, rfl, fun before hBefore => ?_⟩
  obtain rfl := List.prefix_nil.mp hBefore
  exact ⟨List.prefix_rfl, List.prefix_rfl⟩

theorem concat (h : c.Accounted deeds)
    (hParcels : c.held ++ (c.coming ++ d.arrivals).filterMap Delivery.parcel?
      = d.batch ++ c'.held ++ c'.coming.filterMap Delivery.parcel?)
    (hRefusals : (c.coming ++ d.arrivals).filterMap Delivery.refusal?
      = d.refusal?.toList ++ c'.coming.filterMap Delivery.refusal?) :
    c'.Accounted (deeds ++ [d]) := by
  rw [List.filterMap_append] at hParcels hRefusals
  have hAllParcels : (allArrivals (deeds ++ [d])).filterMap Delivery.parcel?
      = allBatches (deeds ++ [d]) ++ c'.held ++ c'.coming.filterMap Delivery.parcel? := by
    simp only [allArrivals_append, allArrivals_singleton, allBatches_append, allBatches_singleton,
      List.filterMap_append, h.parcels, List.append_assoc] at hParcels ⊢
    rw [hParcels]
  have hAllRefusals : (allArrivals (deeds ++ [d])).filterMap Delivery.refusal?
      = allRefusals (deeds ++ [d]) ++ c'.coming.filterMap Delivery.refusal? := by
    simp only [allArrivals_append, allArrivals_singleton, allRefusals_append,
      allRefusals_singleton, List.filterMap_append, h.refusals, List.append_assoc]
    rw [hRefusals]
  refine ⟨hAllParcels, hAllRefusals, h.order.concat ?_ ?_⟩
  · rw [hAllParcels, List.append_assoc]
    exact List.prefix_append _ _
  · rw [hAllRefusals]
    exact List.prefix_append _ _

theorem concat_idle (h : c.Accounted deeds) (hHeld : c'.held = c.held)
    (hComing : c'.coming = c.coming) (hArrivals : d.arrivals = []) (hBatch : d.batch = [])
    (hRefusal : d.refusal? = none) : c'.Accounted (deeds ++ [d]) :=
  h.concat (by simp [hHeld, hComing, hArrivals, hBatch])
    (by simp [hComing, hArrivals, hRefusal])

theorem fetched (h : c.Accounted deeds) (hComing : c.coming = []) (f : Fetch φ) :
    (c.fetched f).Accounted (deeds ++ f.deeds) := by
  match f with
  | .answered (.ok deliveries) =>
    exact h.concat (by simp [hComing, Deed.arrivals, batch, Custody.fetched])
      (by simp [hComing, Deed.arrivals, refusal?, Custody.fetched])
  | .answered (.error e) => exact h.concat_idle rfl rfl rfl rfl rfl
  | .stalled => exact h.concat_idle rfl rfl rfl rfl rfl
  | .waiting time call => simpa [Fetch.deeds] using ⟨h.parcels, h.refusals, h.order⟩
  | .crashed => simpa [Fetch.deeds] using ⟨h.parcels, h.refusals, h.order⟩

theorem move {intake : Source σ φ} {settings : WorkerSettings} {s s' : σ} {new : List Deed}
    (h : c.Accounted deeds) (hMove : Move intake settings c s new c' s') :
    c'.Accounted (deeds ++ new) := by
  cases hMove with
  | rest => simpa using h
  | leave => simpa using ⟨h.parcels, h.refusals, h.order⟩
  | fetch s max wait hCall hComing =>
    have hAsk : c.Accounted (deeds ++ [.ask max wait]) := h.concat_idle rfl rfl rfl rfl rfl
    simpa using hAsk.fetched hComing _
  | resume s call hCall hComing => exact h.fetched hComing _
  | accept s hComing hParcel =>
    obtain rfl := Delivery.parcel?_eq_some hParcel
    exact h.concat (by simp [hComing, Deed.arrivals, batch])
      (by simp [hComing, Deed.arrivals, refusal?, List.filterMap_cons])
  | reject s hComing hRefusal =>
    obtain rfl := Delivery.refusal?_eq_some hRefusal
    exact h.concat (by simp [hComing, Deed.arrivals, batch, List.filterMap_cons])
      (by simp [hComing, Deed.arrivals, refusal?])
  | commit => exact h.concat_idle rfl rfl rfl rfl rfl
  | store s hHeld =>
    exact h.concat (by simp [hHeld, Deed.arrivals, batch]) (by simp [Deed.arrivals, refusal?])
  | giveUp s hHeld =>
    exact h.concat (by simp [hHeld, Deed.arrivals, batch]) (by simp [Deed.arrivals, refusal?])

end Custody.Accounted

def Verdict.ofResult {ε α : Type} : Except ε α → Verdict
  | .ok _ => .acknowledged
  | .error _ => .returned

def Verdict.ofLetter : Option Answer → Verdict
  | some answer => .ofResult answer
  | none => .returned

namespace Deed

/-- A batch is tried until an attempt succeeds or the last one has failed. Then every message of it
is settled, whatever the other calls answer, and a commit follows. -/
def SettlesBatch (maxAttempts : Nat) (d : Deed) : Prop :=
  ∃ failures result settling answer,
    d.calls = failedAttempts d.batch.rows failures
      ++ [.insert d.batch.rows, .inserted d.batch.rows result] ++ settling ++ [.commit answer] ∧
    settling.map Happening.settlement?
      = d.batch.handles.map (fun h => some (Verdict.ofResult result, h)) ∧
    failures.length < maxAttempts ∧
    (∀ e, result = .error e → failures.length + 1 = maxAttempts)

/-- A message without an event is settled by one call, after the call that puts it aside if there is
one. -/
def SettlesRefusal (h : Handle) (m : Malformed) (d : Deed) : Prop :=
  ∃ (letter : Option Answer) (call : Happening),
    d.calls = letter.toList.map (.deadLetter h m.raw m.reason.message) ++ [call] ∧
    call.settlement? = some (Verdict.ofLetter letter, h)

theorem settlesBatch_of_allows {settings : WorkerSettings} {d : Deed}
    (h : Custody.Allows settings d) (hBatch : d.batch ≠ []) :
    d.SettlesBatch settings.retry.maxAttempts := by
  cases d with
  | store parcels failures answer =>
    refine ⟨failures, .ok (), parcels.map fun p => .ack p.1.handle p.2, answer, rfl, ?_, h, nofun⟩
    simp [batch, batchOf, Batch.handles, Verdict.ofResult, Function.comp_def]
  | giveUp parcels failures answer =>
    have hLength : failures.length = settings.retry.maxAttempts := h
    have hPos := Worker.maxAttempts_pos settings.retry
    obtain rfl | ⟨before, e, rfl⟩ := failures.eq_nil_or_concat
    · simp only [List.length_nil] at hLength
      omega
    rw [List.concat_eq_append] at hLength ⊢
    rw [List.length_append, List.length_singleton] at hLength
    refine ⟨before, .error e, parcels.map fun p => .nak p.1.handle p.2, answer, ?_, ?_, by omega,
      fun _ _ => hLength⟩
    · simp [calls, batch, Worker.failedAttempts_append]
    · simp [batch, batchOf, Batch.handles, Verdict.ofResult, Function.comp_def]
  | _ => exact absurd rfl hBatch

theorem settlesRefusal {d : Deed} {h : Handle} {m : Malformed} (hRefusal : d.refusal? = some (h, m)) :
    d.SettlesRefusal h m := by
  cases d with
  | reject h' m' letter answer =>
    obtain ⟨rfl, rfl⟩ : h' = h ∧ m' = m := by simpa [refusal?] using hRefusal
    rcases letter with _ | e | u
    · exact ⟨none, _, rfl, rfl⟩
    · exact ⟨some (.error e), _, rfl, rfl⟩
    · exact ⟨some (.ok u), _, rfl, rfl⟩
  | _ => cases hRefusal

/-- Whatever order the deeds settle their messages in, these are the messages of the batches and of
the rejections. -/
theorem handles_perm (deeds : List Deed) :
    (deeds.flatMap handles).Perm
      ((allBatches deeds).handles ++ (allRefusals deeds).map Prod.fst) := by
  rw [List.perm_iff_count]
  intro h
  induction deeds with
  | nil => rfl
  | cons d deeds ih =>
    have hSplit := allBatches_append [d] deeds
    have hRefusals := allRefusals_append [d] deeds
    simp only [List.singleton_append, allBatches_singleton, allRefusals_singleton] at hSplit hRefusals
    simp only [List.flatMap_cons, handles, hSplit, hRefusals, Batch.handles, List.map_append,
      List.count_append] at ih ⊢
    omega

end Deed

theorem Delivery.handles_perm (deliveries : List Delivery) :
    (Batch.handles (deliveries.filterMap parcel?)
      ++ (deliveries.filterMap refusal?).map Prod.fst).Perm (deliveries.map Delivery.handle) := by
  rw [List.perm_iff_count]
  intro h
  induction deliveries with
  | nil => rfl
  | cons d deliveries ih =>
    obtain ⟨handle, content⟩ := d
    cases content <;>
      simp [List.filterMap_cons, Batch.handles, List.count_cons] at ih ⊢ <;> omega

/-- The calls of a journal are these deeds, and all that arrived is settled by them. -/
structure Journal.SettledBy (maxAttempts : Nat) (journal : List Happening) (deeds : List Deed) :
    Prop where
  calls_eq : calls journal = deeds.flatMap Deed.calls
  once : ((settlements journal).map Prod.snd).Perm ((arrivals journal).map Delivery.handle)
  batches : allBatches deeds = (arrivals journal).filterMap Delivery.parcel?
  refusals : allRefusals deeds = (arrivals journal).filterMap Delivery.refusal?
  order : InOrder deeds
  settlesBatch : ∀ d ∈ deeds, d.batch ≠ [] → d.SettlesBatch maxAttempts
  settlesRefusal : ∀ d ∈ deeds, ∀ h m, d.refusal? = some (h, m) → d.SettlesRefusal h m

theorem Journal.settlements_flatMap_calls (deeds : List Deed) :
    (settlements (deeds.flatMap Deed.calls)).map Prod.snd = deeds.flatMap Deed.handles := by
  induction deeds with
  | nil => rfl
  | cons d deeds ih =>
    rw [List.flatMap_cons, settlements_append, List.map_append, ih, Deed.settlements_calls,
      List.flatMap_cons]
    simp [Function.comp_def]

theorem Custody.Accounted.settledBy {φ : Type} {c : Custody φ} {deeds : List Deed}
    (h : c.Accounted deeds) (hHeld : c.held = []) (hComing : c.coming = [])
    {settings : WorkerSettings} (hAllows : ∀ d ∈ deeds, Allows settings d)
    {journal : List Happening} (hCalls : calls journal = deeds.flatMap Deed.calls) :
    SettledBy settings.retry.maxAttempts journal deeds := by
  have hArrivals : arrivals journal = allArrivals deeds := by
    rw [← Journal.arrivals_calls, hCalls, arrivals_flatMap_calls]
  have hBatches : allBatches deeds = (arrivals journal).filterMap Delivery.parcel? := by
    rw [hArrivals, h.parcels, hHeld, hComing]
    simp
  have hRefusals : allRefusals deeds = (arrivals journal).filterMap Delivery.refusal? := by
    rw [hArrivals, h.refusals, hComing]
    simp
  refine ⟨hCalls, ?_, hBatches, hRefusals, h.order, ?_, ?_⟩
  · rw [← Journal.settlements_calls, hCalls, settlements_flatMap_calls]
    refine (handles_perm deeds).trans ?_
    rw [hBatches, hRefusals]
    exact Delivery.handles_perm _
  · exact fun d hDeed hBatch => settlesBatch_of_allows (hAllows d hDeed) hBatch
  · exact fun d _ _ _ hRefusal => Deed.settlesRefusal hRefusal

namespace Worker.Course

variable {α σ τ φ ψ : Type}

theorem run_accounted (setup : Setup σ τ φ ψ) (act : α → σ → σ) (source : σ) (store : τ)
    (turns : List (Turn α τ)) :
    let c := run setup act turns (start setup.settings source store)
    ∃ deeds, Chronicle setup.settings c.scene.worker c.journal deeds ∧
      c.scene.worker.custody.Accounted deeds ∧ ∀ d ∈ deeds, Custody.Allows setup.settings d := by
  refine run_from_start (I := fun c _ deeds => c.Accounted deeds ∧
    ∀ d ∈ deeds, Custody.Allows setup.settings d) ?_ (fun _ h => h)
    ⟨.start, List.forall_mem_nil _⟩ turns
  intro c s deeds new c' s' h hMove
  exact ⟨h.1.move hMove, fun d hDeed => (List.mem_append.mp hDeed).elim (h.2 d) (hMove.allows d)⟩

end Worker.Course

end EventIngest
