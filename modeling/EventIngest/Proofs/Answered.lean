import EventIngest.Proofs.Custody
import EventIngest.Proofs.Guarded
/-!
# Settlements that went through

Of the messages that a deed settles, those whose call was answered without an error. If no such call
failed in a journal, then each of its deeds went through as a whole.
-/
namespace EventIngest

namespace Deed

/-- The parcels whose settlement was answered without an error. -/
def answered (parcels : List (Parcel × Answer)) : List Handle :=
  parcels.filterMap fun p =>
    match p.2 with
    | .ok _ => some p.1.handle
    | .error _ => none

def acked : Deed → List Handle
  | store parcels .. => answered parcels
  | reject h _ (some (.ok _)) (.ok _) => [h]
  | _ => []

def returned : Deed → List Handle
  | giveUp parcels .. => answered parcels
  | reject h _ none (.ok _) | reject h _ (some (.error _)) (.ok _) => [h]
  | _ => []

def IsAcked (deeds : List Deed) (o : Int) : Prop := ∃ d ∈ deeds, ∃ h ∈ d.acked, h.offset = o

def IsThrough (d : Deed) : Prop := d.acked ++ d.returned = d.handles

theorem mem_answered {parcels : List (Parcel × Answer)} {h : Handle} :
    h ∈ answered parcels ↔ ∃ p u, (p, .ok u) ∈ parcels ∧ p.handle = h := by
  rw [answered, List.mem_filterMap]
  constructor
  · rintro ⟨⟨p, _ | u⟩, hp, hh⟩
    · cases hh
    · exact ⟨p, u, hp, Option.some.inj hh⟩
  · rintro ⟨p, u, hp, rfl⟩
    exact ⟨_, hp, rfl⟩

theorem answered_subset (parcels : List (Parcel × Answer)) :
    answered parcels ⊆ (batchOf parcels).handles := by
  intro h hh
  obtain ⟨p, u, hp, rfl⟩ := mem_answered.mp hh
  exact List.mem_map_of_mem (List.mem_map_of_mem hp)

theorem acked_subset (d : Deed) : d.acked ⊆ d.handles := by
  match d with
  | .store parcels failures answer => exact fun h hh => List.mem_append_left _ (answered_subset _ hh)
  | .reject h m (some (.ok _)) (.ok _) => exact fun _ hh => hh
  | .reject h m none _ | .reject h m (some (.error _)) _ | .reject h m (some (.ok _)) (.error _)
  | .giveUp .. | .ask .. | .receive _ | .miss _ | .stall | .accept _ | .commit _ =>
    exact List.nil_subset _

theorem returned_subset (d : Deed) : d.returned ⊆ d.handles := by
  match d with
  | .giveUp parcels failures answer => exact fun h hh => List.mem_append_left _ (answered_subset _ hh)
  | .reject h m none (.ok _) | .reject h m (some (.error _)) (.ok _) => exact fun _ hh => hh
  | .reject h m (some (.ok _)) _ | .reject h m none (.error _)
  | .reject h m (some (.error _)) (.error _)
  | .store .. | .ask .. | .receive _ | .miss _ | .stall | .accept _ | .commit _ =>
    exact List.nil_subset _

theorem IsAcked.append {deeds : List Deed} {o : Int} (h : IsAcked deeds o) (new : List Deed) :
    IsAcked (deeds ++ new) o := by
  obtain ⟨d, hd, hAcked⟩ := h
  exact ⟨d, List.mem_append_left _ hd, hAcked⟩

theorem ack_mem_calls {d : Deed} {h : Handle} (hh : h ∈ d.acked) : .ack h (.ok ()) ∈ d.calls := by
  match d with
  | .store parcels failures answer =>
    obtain ⟨p, u, hp, rfl⟩ := mem_answered.mp hh
    refine List.mem_append_left _ (List.mem_append_right _ ?_)
    exact List.mem_map.mpr ⟨(p, .ok u), hp, rfl⟩
  | .reject h' m (some (.ok _)) (.ok _) =>
    obtain rfl := List.mem_singleton.mp hh
    exact List.mem_cons_of_mem _ List.mem_cons_self
  | .reject _ _ none _ | .reject _ _ (some (.error _)) _ | .reject _ _ (some (.ok _)) (.error _)
  | .giveUp .. | .ask .. | .receive _ | .miss _ | .stall | .accept _ | .commit _ =>
    exact absurd hh List.not_mem_nil

end Deed

open Deed

def Happening.isFailedSettlement : Happening → Bool
  | .ack _ (.error _) | .nak _ (.error _) => true
  | _ => false

def Journal.NoneFailed (journal : List Happening) : Prop :=
  ∀ call ∈ journal, call.isFailedSettlement = false

instance (journal : List Happening) : Decidable (Journal.NoneFailed journal) :=
  inferInstanceAs (Decidable (∀ call ∈ journal, call.isFailedSettlement = false))

namespace Deed

theorem answered_of_noneFailed {f : Handle → Answer → Happening}
    (hEntry : ∀ h e, (f h (.error e)).isFailedSettlement = true) {parcels : List (Parcel × Answer)}
    (h : Journal.NoneFailed (parcels.map fun p => f p.1.handle p.2)) :
    answered parcels = (batchOf parcels).handles := by
  induction parcels with
  | nil => rfl
  | cons p ps ih =>
    obtain ⟨hFirst, hRest⟩ := List.forall_mem_cons.mp h
    have hAnswered := ih hRest
    rw [answered] at hAnswered
    obtain ⟨p, e | u⟩ := p
    · rw [hEntry] at hFirst
      cases hFirst
    · simp [answered, hAnswered, batchOf, Batch.handles]

theorem isThrough_of_noneFailed {d : Deed} (h : Journal.NoneFailed d.calls) : d.IsThrough := by
  match d with
  | .store parcels failures answer =>
    have hAll := answered_of_noneFailed (f := .ack) (fun _ _ => rfl) fun call hCall =>
      h call (List.mem_append_left _ (List.mem_append_right _ hCall))
    simp [IsThrough, acked, returned, handles, batch, refusal?, hAll]
  | .giveUp parcels failures answer =>
    have hAll := answered_of_noneFailed (f := .nak) (fun _ _ => rfl) fun call hCall =>
      h call (List.mem_append_left _ (List.mem_append_right _ hCall))
    simp [IsThrough, acked, returned, handles, batch, refusal?, hAll]
  | .reject handle m none (.error e) =>
    cases h _ List.mem_cons_self
  | .reject handle m (some (.error _)) (.error e) | .reject handle m (some (.ok _)) (.error e) =>
    cases h _ (List.mem_cons_of_mem _ List.mem_cons_self)
  | .reject _ _ none (.ok _) | .reject _ _ (some (.error _)) (.ok _)
  | .reject _ _ (some (.ok _)) (.ok _)
  | .ask .. | .receive _ | .miss _ | .stall | .accept _ | .commit _ => rfl

end Deed

theorem Worker.Chronicle.isThrough {φ ψ : Type} {settings : WorkerSettings} {w : Worker φ ψ}
    {journal : List Happening} {deeds : List Deed} (h : Chronicle settings w journal deeds)
    (hNone : Journal.NoneFailed journal) : ∀ d ∈ deeds, d.IsThrough :=
  fun _ hd => isThrough_of_noneFailed fun call hCall => hNone call (h.mem_journal hd hCall)

section Passing

variable {γ σ φ : Type}

/-- A call that does this unless it fails, and then does nothing. -/
def Passes (call : γ × σ → Handle → Answer × γ × σ) (inner : σ → Handle → σ) : Prop :=
  ∀ s h, ((call s h).1 = .ok () ∧ (call s h).2.2 = inner s.2 h) ∨
    ∃ e, (call s h).1 = .error e ∧ (call s h).2.2 = s.2

theorem guarded_ack_passes (guard : Guard γ) {source : Source σ φ} {inner : σ → Handle → σ}
    (hAck : ∀ s h, source.ack s h = (.ok (), inner s h)) :
    Passes (source.guarded guard).ack inner := by
  intro s h
  simp only [Source.guarded, hAck]
  exact Guard.pass_ok _ _ _

theorem guarded_nak_passes (guard : Guard γ) {source : Source σ φ} {inner : σ → Handle → σ}
    (hNak : ∀ s h, source.nak s h = (.ok (), inner s h)) :
    Passes (source.guarded guard).nak inner := by
  intro s h
  simp only [Source.guarded, hNak]
  exact Guard.pass_ok _ _ _

/-- The source after settling messages one after another is the source after settling those that
were answered without an error. -/
theorem each_passes {call : γ × σ → Handle → Answer × γ × σ} {inner : σ → Handle → σ}
    (hCall : Passes call inner) (b : Batch) (s : γ × σ) :
    (Source.each call b s).2.2 = (answered (Source.each call b s).1).foldl inner s.2 := by
  induction b generalizing s with
  | nil => rfl
  | cons p ps ih =>
    rw [Source.each, ih]
    obtain ⟨hAnswer, hState⟩ | ⟨e, hAnswer, hState⟩ := hCall s p.handle
    · simp only [answered, List.filterMap_cons, hAnswer, List.foldl_cons, hState]
    · simp only [answered, List.filterMap_cons, hAnswer, hState]

end Passing

section Through

variable {σ : Type} {call : σ → Handle → Answer × σ} {b : Batch} {s : σ}
  {failures : List StoreError} {answer : Answer}

theorem Deed.IsThrough.answered_store
    (h : (store (Source.each call b s).1 failures answer).IsThrough) :
    answered (Source.each call b s).1 = b.handles := by
  simpa [IsThrough, acked, returned, Deed.handles, batch, refusal?] using h

theorem Deed.IsThrough.answered_giveUp
    (h : (giveUp (Source.each call b s).1 failures answer).IsThrough) :
    answered (Source.each call b s).1 = b.handles := by
  simpa [IsThrough, acked, returned, Deed.handles, batch, refusal?] using h

end Through

theorem Journal.noneFailed_calls {journal : List Happening} :
    NoneFailed (calls journal) ↔ NoneFailed journal := by
  constructor
  · intro h call hCall
    by_cases hIsCall : call.isCall
    · exact h call (List.mem_filter.mpr ⟨hCall, hIsCall⟩)
    · cases call with
      | notice n => rfl
      | _ => exact absurd rfl hIsCall
  · exact fun h call hCall => h call (mem_of_mem_calls hCall)

end EventIngest
