import EventIngest.Proofs.LogMoves
import EventIngest.Proofs.Relay
import EventIngest.Store.Planned
/-!
# What is committed is safe

Workers that read one log in turns, with restarts of the log between their turns, commit an offset
only when its record was stored or put aside. Handles from before a restart may settle what was read
again after it: an acknowledgement is of a record that is safe, whoever is answerable for it now.
-/
namespace EventIngest

open Deed Relay

namespace Log

/-- What others do to a log while workers read it. -/
inductive Act where
  | append (record : List UInt8)
  | restart

def act (l : Log) : Act → Log
  | .append record => l.append record
  | .restart => l.restart

/-- The record of this offset is in a batch that was stored or, if it holds no event, was put
aside. -/
def IsSafe (l : Log) (o : Nat) (journal : List Happening) : Prop :=
  ∃ record, l.records[o]? = some record ∧
    match Event.ofBytes record with
    | .ok event => ∃ rows, .inserted rows (.ok ()) ∈ journal ∧ Row.ofEvent event ∈ rows
    | .error reason => ∃ handle : Handle, handle.partition = 0 ∧ handle.offset = o ∧
        .deadLetter handle record reason.message (.ok ()) ∈ journal

theorem isSafe_of_acked {l : Log} {c : Custody Waiting} {deeds : List Deed}
    (h : c.Faithful l.book deeds) {o : Nat} (ho : IsAcked deeds o) {journal : List Happening}
    (hJournal : ∀ d ∈ deeds, ∀ call ∈ d.calls, call ∈ journal) : l.IsSafe o journal := by
  obtain ⟨d, hd, handle, hHandle, hOffset⟩ := ho
  have hCalls := hJournal d hd
  match d with
  | .store parcels failures answer =>
    obtain ⟨p, u, hp, rfl⟩ := mem_answered.mp hHandle
    have hParcel : p ∈ batchOf parcels := List.mem_map_of_mem hp
    obtain ⟨raw, hRaw, hEvent⟩ := h.batches p (List.mem_flatMap.mpr ⟨_, hd, hParcel⟩)
    obtain ⟨-, hRecord⟩ := book_eq_some.mp hRaw
    refine ⟨raw, by rwa [hOffset] at hRecord, ?_⟩
    rw [hEvent]
    refine ⟨(batchOf parcels).rows, hCalls _ ?_, List.mem_map_of_mem hParcel⟩
    simp [calls]
  | .reject handle' m (some (.ok u)) (.ok _) =>
    obtain rfl := List.mem_singleton.mp hHandle
    obtain ⟨hRaw, hReason⟩ := h.refusals (handle, m) (List.mem_filterMap.mpr ⟨_, hd, rfl⟩)
    obtain ⟨⟨hPartition, -⟩, hRecord⟩ := book_eq_some.mp hRaw
    refine ⟨m.raw, by rwa [hOffset] at hRecord, ?_⟩
    rw [hReason]
    exact ⟨handle, hPartition, hOffset, hCalls _ List.mem_cons_self⟩
  | .reject _ _ none _ | .reject _ _ (some (.error _)) _ | .reject _ _ (some (.ok _)) (.error _)
  | .giveUp .. | .ask .. | .receive _ | .miss _ | .stall | .accept _ | .commit _ =>
    exact absurd hHandle List.not_mem_nil

/-- A log and the workers over it. All that was committed, and all that was read and is not pending
any more, was acknowledged by some of them. -/
structure Attended (l : Log) (cs : Nat → Custody Waiting) (deeds : Nat → List Deed) : Prop where
  sound : l.Sound
  faithful : ∀ i, (cs i).Faithful l.book (deeds i)
  covered : l.Covered fun o => ∃ i, IsAcked (deeds i) o

namespace Attended

variable {l : Log} {cs : Nat → Custody Waiting} {deeds : Nat → List Deed}

theorem start (records : Array (List UInt8)) :
    Attended { records } (fun _ => {}) fun _ => [] :=
  ⟨.start records, fun _ => .start _, .start records⟩

theorem act (h : l.Attended cs deeds) (a : Act) : (l.act a).Attended cs deeds := by
  cases a with
  | append record =>
    refine ⟨h.sound.append record, fun i => ?_, h.covered.append record⟩
    exact (h.faithful i).mono (l.book_append record)
  | restart => exact ⟨h.sound.restart, h.faithful, h.covered.restart⟩

theorem move {γ : Type} {guard : Guard γ} {settings : WorkerSettings} {s s' : γ × Log} {i : Nat}
    {c' : Custody Waiting} {new : List Deed} (h : s.2.Attended cs deeds)
    (hMove : Custody.Move (source.guarded guard) settings (cs i) s new c' s') :
    s'.2.Attended (put cs i c') (put deeds i (deeds i ++ new)) := by
  have hServes := move_serves guard h.sound (h.faithful i) hMove
  have hBook : s'.2.book = s.2.book := book_eq (hServes.records h.sound)
  have hSelf : put deeds i (deeds i ++ new) i = deeds i ++ new := put_same
  refine ⟨hServes.sound h.sound, fun j => ?_, ?_⟩
  · rw [hBook]
    by_cases hj : j = i
    · rw [hj, put_same, put_same]
      exact move_faithful guard h.sound (h.faithful i) hMove
    · rw [put_other hj, put_other hj]
      exact h.faithful j
  · refine (h.covered.mono ?_).serves hServes h.sound ?_
    · rintro o ⟨j, hAcked⟩
      refine ⟨j, ?_⟩
      by_cases hj : j = i
      · rw [hj, hSelf]
        exact (hj ▸ hAcked).append new
      · rwa [put_other hj]
    · intro d hd handle hh
      refine ⟨i, d, ?_, handle, hh, rfl⟩
      rw [hSelf]
      exact List.mem_append_right _ hd

end Attended

section Relays

variable {γ τ ψ : Type}

def relay (settings : Nat → WorkerSettings) (guard : Nat → Guard γ) (store : Nat → Store τ ψ)
    (i : Nat) : Worker.Setup (γ × Log) τ Waiting ψ :=
  ⟨settings i, source.guarded (guard i), store i⟩

variable {settings : Nat → WorkerSettings} {guard : Nat → Guard γ} {store : Nat → Store τ ψ}

def AttendedFrom (n : Nat) (cs : Nat → Custody Waiting) (s : γ × Log) (deeds : Nat → List Deed) :
    Prop :=
  s.2.Attended cs deeds ∧ n ≤ s.2.committed

theorem run_attended {n : Nat} {r : Relay (γ × Log) τ Waiting ψ}
    (h : r.Keeps (relay settings guard store) (AttendedFrom n))
    (turns : List (Nat × Worker.Turn Act τ)) :
    (r.run (relay settings guard store) (behind act) turns).Keeps (relay settings guard store)
      (AttendedFrom n) := by
  refine run_keeps ?_ ?_ h turns
  · intro cs s deeds i new c' s' hBefore hMove
    have hServes := move_serves (guard i) hBefore.1.sound (hBefore.1.faithful i) hMove
    exact ⟨hBefore.1.move hMove, Nat.le_trans hBefore.2 (hServes.committed_le hBefore.1.sound)⟩
  · intro cs s deeds a hBefore
    refine ⟨hBefore.1.act a, ?_⟩
    cases a with
    | append _ | restart => exact hBefore.2

/-- In every run of any workers over a log, whatever fails and whenever the log is restarted, each
record below the committed offset is safe, and the committed offset never moves back. -/
theorem committed_is_safe (settings : Nat → WorkerSettings) (guard : Nat → Guard γ)
    (store : Nat → Store τ ψ) (g : γ) (t : τ) (records : Array (List UInt8))
    (turns more : List (Nat × Worker.Turn Act τ)) :
    let setup := relay settings guard store
    let r := Relay.run setup (behind act) turns (.start setup (g, { records }) t)
    (∀ o < r.source.2.committed, ∃ i, r.source.2.IsSafe o (r.runners i).journal) ∧
    r.source.2.committed ≤ (Relay.run setup (behind act) (turns ++ more)
      (.start setup (g, { records }) t)).source.2.committed := by
  intro setup r
  have hStart : (Relay.start setup (g, { records }) t).Keeps setup (AttendedFrom 0) :=
    keeps_start ⟨.start records, Nat.zero_le _⟩
  obtain ⟨deeds, hChronicles, hAttended, -⟩ := run_attended hStart turns
  constructor
  · intro o ho
    obtain ⟨i, hAcked⟩ := hAttended.covered.committed o ho
    refine ⟨i, isSafe_of_acked (hAttended.faithful i) hAcked ?_⟩
    exact fun d hd call hCall => (hChronicles i).mem_journal hd hCall
  · rw [Relay.run_append]
    -- The run goes on from here with what is committed now as the bound.
    have hHere : r.Keeps setup (AttendedFrom r.source.2.committed) :=
      ⟨deeds, hChronicles, hAttended, Nat.le_refl _⟩
    obtain ⟨-, -, -, hCommitted⟩ := run_attended hHere more
    exact hCommitted

/-- A worker has begun to write an event when the log is restarted, and another takes over. -/
def takingOver : List (Nat × Worker.Turn Act PlannedStore) :=
  List.replicate 3 (0, .work 0) ++ [(0, .outside .restart), (0, .outside (.append [120]))]
    ++ List.replicate 8 (1, .work 0)

def twoWorkers : Nat → Worker.Setup (Unit × Log) PlannedStore Waiting (Option StoreError) :=
  relay (fun _ => { batchSize := 1, maxDeliver := 1 }) (fun _ => Guard.free)
    fun _ => PlannedStore.store

/-- The first worker still ends its write after the second has committed all. -/
theorem two_workers_commit_safely :
    let r := Relay.run twoWorkers (behind act) takingOver
      (.start twoWorkers ((), { records := #[[123, 125]] }) {})
    r.source.2.committed = 2 ∧ (∃ i, r.source.2.IsSafe 1 (r.runners i).journal) ∧
    2 ≤ (Relay.run twoWorkers (behind act) (takingOver ++ [(0, .work 0)])
      (.start twoWorkers ((), { records := #[[123, 125]] }) {})).source.2.committed := by
  intro r
  have hCommitted : r.source.2.committed = 2 := by rfl
  obtain ⟨hSafe, hMonotone⟩ := committed_is_safe (fun _ => { batchSize := 1, maxDeliver := 1 })
    (fun _ => Guard.free) (fun _ => PlannedStore.store) () {} #[[123, 125]] takingOver
    [(0, .work 0)]
  refine ⟨hCommitted, hSafe 1 ?_, Nat.le_trans (Nat.le_of_eq hCommitted.symm) hMonotone⟩
  exact Nat.lt_of_lt_of_eq (by decide) hCommitted.symm

end Relays

end Log

end EventIngest
