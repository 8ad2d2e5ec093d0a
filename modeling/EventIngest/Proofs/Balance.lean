import EventIngest.Proofs.Custody
import Mathlib.Algebra.GroupWithZero.Nat
/-!
# The balance of a move

What a worker had and what arrives is what it deals with and what it has afterwards: of events in
their order, and of messages without an event. A move deals with one batch at most. What deeds add
to the counters can be read off them.
-/
namespace EventIngest

open Deed

variable {σ φ : Type}

def Batch.present (b : Batch) : List Batch := if b = [] then [] else [b]

@[simp] theorem Batch.present_nil : present [] = [] := rfl

theorem Batch.present_of_ne {b : Batch} (h : b ≠ []) : b.present = [b] := if_neg h

@[simp] theorem Batch.flatten_present (b : Batch) : b.present.flatten = b := by
  by_cases h : b = []
  · rw [h]
    rfl
  · rw [present_of_ne h, List.flatten_singleton]

def Deed.settledBatches (deeds : List Deed) : List Batch :=
  deeds.flatMap fun d => d.batch.present

theorem Deed.settledBatches_append (a b : List Deed) :
    settledBatches (a ++ b) = settledBatches a ++ settledBatches b := List.flatMap_append

@[simp] def Deed.accepted? : Deed → Option Parcel
  | accept p => some p
  | _ => none

def Deed.allAccepted (deeds : List Deed) : Batch := deeds.filterMap accepted?

theorem Deed.allAccepted_append (a b : List Deed) :
    allAccepted (a ++ b) = allAccepted a ++ allAccepted b := List.filterMap_append

namespace Fetch

@[simp] def arrivals : Fetch φ → List Delivery
  | .answered (.ok deliveries) => deliveries
  | .answered (.error _) | .waiting .. | .stalled | .crashed => []

theorem allArrivals_deeds (f : Fetch φ) : allArrivals f.deeds = f.arrivals := by
  match f with
  | .answered (.ok deliveries) => exact List.append_nil _
  | .answered (.error _) | .waiting .. | .stalled | .crashed => rfl

/-- A fetch settles nothing and takes nothing in. -/
theorem deeds_readings (f : Fetch φ) :
    allAccepted f.deeds = [] ∧ allBatches f.deeds = [] ∧ allRefusals f.deeds = [] ∧
      settledBatches f.deeds = [] := by
  match f with
  | .answered (.ok _) | .answered (.error _) | .waiting .. | .stalled | .crashed =>
    exact ⟨rfl, rfl, rfl, rfl⟩

end Fetch

namespace Custody

theorem fetched_readings (c : Custody φ) (hComing : c.coming = []) (f : Fetch φ) :
    (c.fetched f).held = c.held ∧ (c.fetched f).coming = f.arrivals := by
  match f with
  | .answered (.ok deliveries) => exact ⟨rfl, rfl⟩
  | .answered (.error _) | .waiting .. | .stalled | .crashed => exact ⟨rfl, hComing⟩

variable {intake : Source σ φ} {settings : WorkerSettings} {c c' : Custody φ} {s s' : σ}
  {new : List Deed}

theorem Move.held_eq (h : Move intake settings c s new c' s') :
    c.held ++ allAccepted new = allBatches new ++ c'.held := by
  cases h with
  | rest | leave | commit | reject => exact List.append_nil _
  | fetch s max wait hCall hComing =>
    obtain ⟨hAccepted, hBatches, -⟩ := (intake.fetch s max wait).1.deeds_readings
    obtain ⟨hHeld, -⟩ := c.fetched_readings hComing (intake.fetch s max wait).1
    have hNone : allAccepted (.ask max wait :: (intake.fetch s max wait).1.deeds) = [] := hAccepted
    have hNone' : allBatches (.ask max wait :: (intake.fetch s max wait).1.deeds) = [] := hBatches
    rw [hNone, hNone', hHeld, List.append_nil, List.nil_append]
  | resume s call hCall hComing =>
    obtain ⟨hAccepted, hBatches, -⟩ := (intake.resume s call).1.deeds_readings
    obtain ⟨hHeld, -⟩ := c.fetched_readings hComing (intake.resume s call).1
    rw [hAccepted, hBatches, hHeld, List.append_nil, List.nil_append]
  | accept s hComing hParcel => rfl
  | store s hHeld => simp [hHeld, allAccepted, batch]
  | giveUp s hHeld => simp [hHeld, allAccepted, batch]

theorem Move.accepted_eq (h : Move intake settings c s new c' s') :
    (c.coming ++ allArrivals new).filterMap Delivery.parcel?
      = allAccepted new ++ c'.coming.filterMap Delivery.parcel? := by
  cases h with
  | rest | leave => simp [allArrivals, allAccepted]
  | fetch s max wait hCall hComing =>
    obtain ⟨hAccepted, -⟩ := (intake.fetch s max wait).1.deeds_readings
    obtain ⟨-, hFetched⟩ := c.fetched_readings hComing (intake.fetch s max wait).1
    have hAsked : allArrivals (.ask max wait :: (intake.fetch s max wait).1.deeds)
        = (intake.fetch s max wait).1.arrivals := Fetch.allArrivals_deeds _
    have hNone : allAccepted (.ask max wait :: (intake.fetch s max wait).1.deeds) = [] := hAccepted
    rw [hAsked, hNone, hFetched, hComing]
    rfl
  | resume s call hCall hComing =>
    obtain ⟨hAccepted, -⟩ := (intake.resume s call).1.deeds_readings
    obtain ⟨-, hFetched⟩ := c.fetched_readings hComing (intake.resume s call).1
    rw [Fetch.allArrivals_deeds, hAccepted, hFetched, hComing]
    rfl
  | accept s hComing hParcel =>
    simp [hComing, List.filterMap_cons_some hParcel, arrivals, allAccepted]
  | reject s hComing hRefusal =>
    obtain rfl := Delivery.refusal?_eq_some hRefusal
    simp [hComing, arrivals, allAccepted, List.filterMap_cons]
  | commit s hComing => simp [arrivals, allAccepted]
  | store s hHeld => simp [arrivals, allAccepted]
  | giveUp s hHeld => simp [arrivals, allAccepted]

theorem Move.parcels_eq (h : Move intake settings c s new c' s') :
    c.held ++ (c.coming ++ allArrivals new).filterMap Delivery.parcel?
      = allBatches new ++ (c'.held ++ c'.coming.filterMap Delivery.parcel?) := by
  rw [h.accepted_eq, ← List.append_assoc, h.held_eq, List.append_assoc]

theorem Move.refusals_eq (h : Move intake settings c s new c' s') :
    (c.coming ++ allArrivals new).filterMap Delivery.refusal?
      = allRefusals new ++ c'.coming.filterMap Delivery.refusal? := by
  cases h with
  | rest | leave => simp [allArrivals, allRefusals]
  | fetch s max wait hCall hComing =>
    obtain ⟨-, -, hRefusals, -⟩ := (intake.fetch s max wait).1.deeds_readings
    obtain ⟨-, hFetched⟩ := c.fetched_readings hComing (intake.fetch s max wait).1
    have hAsked : allArrivals (.ask max wait :: (intake.fetch s max wait).1.deeds)
        = (intake.fetch s max wait).1.arrivals := Fetch.allArrivals_deeds _
    have hNone : allRefusals (.ask max wait :: (intake.fetch s max wait).1.deeds) = [] := hRefusals
    rw [hAsked, hNone, hFetched, hComing]
    rfl
  | resume s call hCall hComing =>
    obtain ⟨-, -, hRefusals, -⟩ := (intake.resume s call).1.deeds_readings
    obtain ⟨-, hFetched⟩ := c.fetched_readings hComing (intake.resume s call).1
    rw [Fetch.allArrivals_deeds, hRefusals, hFetched, hComing]
    rfl
  | accept s hComing hParcel =>
    obtain rfl := Delivery.parcel?_eq_some hParcel
    simp [hComing, arrivals, refusal?, List.filterMap_cons]
  | reject s hComing hRefusal =>
    simp [hComing, List.filterMap_cons_some hRefusal, arrivals, refusal?]
  | commit s hComing => simp [arrivals, refusal?]
  | store s hHeld => simp [arrivals, refusal?]
  | giveUp s hHeld => simp [arrivals, refusal?]

/-- A move settles one batch at most. -/
theorem Move.settledBatches_eq (h : Move intake settings c s new c' s') :
    settledBatches new = (allBatches new).present := by
  cases h with
  | rest | leave => rfl
  | fetch s max wait =>
    obtain ⟨-, hBatches, -, hSettled⟩ := (intake.fetch s max wait).1.deeds_readings
    have hNone : allBatches (.ask max wait :: (intake.fetch s max wait).1.deeds) = [] := hBatches
    rw [hNone]
    exact hSettled
  | resume s call =>
    obtain ⟨-, hBatches, -, hSettled⟩ := (intake.resume s call).1.deeds_readings
    rw [hBatches]
    exact hSettled
  | accept | reject | commit => rfl
  | store | giveUp => simp only [settledBatches, allBatches_singleton, List.flatMap_singleton]

end Custody

namespace Deed

theorem processed_tally (deeds : List Deed) (c : Counters) :
    (deeds.foldl tally c).processed = c.processed + UInt64.ofNat (allAccepted deeds).length := by
  induction deeds generalizing c with
  | nil => simp [allAccepted]
  | cons d deeds ih =>
    rw [List.foldl_cons, ih]
    cases d with
    | accept p =>
      have hAccepted : allAccepted (accept p :: deeds) = p :: allAccepted deeds := rfl
      simp only [tally, Counters.addProcessed, hAccepted, List.length_cons, UInt64.ofNat_add]
      ac_rfl
    | _ => rfl

theorem stored_tally (deeds : List Deed) (c : Counters) :
    (deeds.foldl tally c).inserted
      = c.inserted + UInt64.ofNat (storedBatches deeds).flatten.length ∧
    (deeds.foldl tally c).batches = c.batches + UInt64.ofNat (storedBatches deeds).length := by
  induction deeds generalizing c with
  | nil => simp [storedBatches]
  | cons d deeds ih =>
    obtain ⟨hInserted, hBatches⟩ := ih (tally c d)
    rw [List.foldl_cons, hInserted, hBatches]
    cases d with
    | store parcels failures answer =>
      have hStored : storedBatches (store parcels failures answer :: deeds)
          = batchOf parcels :: storedBatches deeds := rfl
      simp only [tally, Counters.addInserted, hStored, List.flatten_cons, List.length_append,
        List.length_cons, UInt64.ofNat_add]
      constructor
      · ac_rfl
      · have hOne : UInt64.ofNat 1 = 1 := rfl
        rw [hOne]
        ac_rfl
    | _ => exact ⟨rfl, rfl⟩

theorem allRefusals_cons (d : Deed) (deeds : List Deed) :
    allRefusals (d :: deeds) = d.refusal?.toList ++ allRefusals deeds := by
  rw [← allRefusals_singleton, ← allRefusals_append]
  rfl

theorem errors_tally (deeds : List Deed) (c : Counters) :
    (deeds.foldl tally c).errors
      = c.errors
        + UInt64.ofNat ((allRefusals deeds).length + (deeds.filterMap failedSize?).sum) := by
  induction deeds generalizing c with
  | nil => simp [allRefusals]
  | cons d deeds ih =>
    rw [List.foldl_cons, ih, allRefusals_cons]
    cases d with
    | reject h m letter answer =>
      have hSizes : (reject h m letter answer :: deeds).filterMap failedSize?
          = deeds.filterMap failedSize? := rfl
      simp only [tally, Counters.addErrors, refusal?, Option.toList_some, List.length_append,
        List.length_singleton, hSizes, UInt64.ofNat_add]
      ac_rfl
    | giveUp parcels failures answer =>
      have hSizes : (giveUp parcels failures answer :: deeds).filterMap failedSize?
          = (batchOf parcels).length :: deeds.filterMap failedSize? := rfl
      simp only [tally, Counters.addErrors, refusal?, Option.toList_none, List.nil_append, hSizes,
        List.sum_cons, UInt64.ofNat_add]
      ac_rfl
    | _ => rfl

/-- What was settled in batches was stored, or its insert failed. -/
theorem length_allBatches (deeds : List Deed) :
    (allBatches deeds).length
      = (storedBatches deeds).flatten.length + (deeds.filterMap failedSize?).sum := by
  induction deeds with
  | nil => rfl
  | cons d deeds ih =>
    rw [allBatches, List.flatMap_cons, ← allBatches, List.length_append, ih]
    cases d with
    | store parcels failures answer =>
      have hStored : storedBatches (store parcels failures answer :: deeds)
          = batchOf parcels :: storedBatches deeds := rfl
      have hFailed : (store parcels failures answer :: deeds).filterMap failedSize?
          = deeds.filterMap failedSize? := rfl
      rw [hStored, hFailed, List.flatten_cons, List.length_append, Nat.add_assoc]
      rfl
    | giveUp parcels failures answer =>
      have hStored : storedBatches (giveUp parcels failures answer :: deeds)
          = storedBatches deeds := rfl
      have hFailed : (giveUp parcels failures answer :: deeds).filterMap failedSize?
          = (batchOf parcels).length :: deeds.filterMap failedSize? := rfl
      rw [hStored, hFailed, List.sum_cons, Nat.add_left_comm]
      rfl
    | _ => exact Nat.zero_add _

end Deed

namespace Worker.Chronicle

open Journal

variable {ψ : Type} {settings : WorkerSettings} {w w' : Worker φ ψ}
  {journal entries : List Happening} {deeds new : List Deed}

theorem arrivals_new (h : Chronicle settings w journal deeds)
    (h' : Chronicle settings w' (journal ++ entries) (deeds ++ new)) :
    Journal.arrivals entries = allArrivals new := by
  have hAll := h'.arrivals_eq
  rw [arrivals_append, allArrivals_append, h.arrivals_eq] at hAll
  exact List.append_cancel_left hAll

theorem stored_new (h : Chronicle settings w journal deeds)
    (h' : Chronicle settings w' (journal ++ entries) (deeds ++ new)) :
    stored entries = (storedBatches new).map Batch.rows := by
  have hAll := h'.stored_eq
  rw [stored_append, storedBatches_append, List.map_append, h.stored_eq] at hAll
  exact List.append_cancel_left hAll

end Worker.Chronicle

end EventIngest
