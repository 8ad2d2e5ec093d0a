import EventIngest.Proofs.Answered
import EventIngest.Proofs.LogSound
/-!
# Moves of a worker over a log

What a move of a worker means to the log behind a guard: nothing, messages that are handed out, or
the settlement of some that the worker had. Of a settlement reaches the log what the guard lets
through.
-/
namespace EventIngest

namespace Deed

def putAside : Deed → List Int
  | reject h _ (some (.ok _)) _ => [h.offset]
  | _ => []

def IsIdle (d : Deed) : Prop := d.batch = [] ∧ d.refusal? = none ∧ d.storedBatch? = none

end Deed

theorem Fetch.deeds_idle {φ : Type} (f : Fetch φ) : ∀ d ∈ f.deeds, d.IsIdle := by
  match f with
  | .answered (.ok _) | .answered (.error _) | .stalled =>
    exact List.forall_mem_singleton.mpr ⟨rfl, rfl, rfl⟩
  | .waiting .. | .crashed => exact List.forall_mem_nil _

namespace Log

open Deed Ledger

variable {γ : Type} (guard : Guard γ)

theorem foldl_acks (l : Log) (hs : List Handle) :
    hs.foldl (fun l h => l.settle [h] []) l = l.settle hs [] := by
  induction hs generalizing l with
  | nil => exact l.settle_nil.symm
  | cons h hs ih => rw [List.foldl_cons, ih, settle_acks]

theorem foldl_naks (l : Log) (hs : List Handle) :
    hs.foldl (fun l h => l.settle [] [h]) l = l.settle [] hs := by
  induction hs generalizing l with
  | nil => exact l.settle_nil.symm
  | cons h hs ih => rw [List.foldl_cons, ih, settle_naks]

theorem ack_passes : Passes (source.guarded guard).ack fun l h => l.settle [h] [] :=
  guarded_ack_passes guard ack_eq

theorem nak_passes : Passes (source.guarded guard).nak fun l h => l.settle [] [h] :=
  guarded_nak_passes guard nak_eq

theorem each_ack (b : Batch) (s : γ × Log) :
    (Source.each (source.guarded guard).ack b s).2.2
      = s.2.settle (answered (Source.each (source.guarded guard).ack b s).1) [] := by
  rw [each_passes (ack_passes guard), foldl_acks]

theorem each_nak (b : Batch) (s : γ × Log) :
    (Source.each (source.guarded guard).nak b s).2.2
      = s.2.settle [] (answered (Source.each (source.guarded guard).nak b s).1) := by
  rw [each_passes (nak_passes guard), foldl_naks]

theorem guarded_commit (s : γ × Log) :
    let r := (source.guarded guard).commit s
    (r.1 = .ok () ∧ r.2.2 = (source.commit s.2).2) ∨ ∃ e, r.1 = .error e ∧ r.2.2 = s.2 :=
  Guard.pass_ok (guard.commit s.1) s.2 (source.commit s.2).2

theorem guarded_deadLetter (s : γ × Log) (h : Handle) (raw : List UInt8) (reason : String) :
    let r := (source.guarded guard).deadLetter s h raw reason
    (r.1 = .ok () ∧ r.2.2 = { s.2 with deadLettered := s.2.deadLettered.push h.offset }) ∨
      ∃ e, r.1 = .error e ∧ r.2.2 = s.2 :=
  Guard.pass_ok (guard.deadLetter s.1 h) s.2 _

/-- What reaches the log of a deed that settles messages. -/
def reached (l : Log) (d : Deed) : Log :=
  { l.settle d.acked d.returned with deadLettered := d.putAside.foldl Array.push l.deadLettered }

theorem reached_none {d : Deed} (hAcked : d.acked = []) (hReturned : d.returned = []) (l : Log) :
    l.reached d = { l with deadLettered := d.putAside.foldl Array.push l.deadLettered } := by
  rw [reached, hAcked, hReturned, settle_nil]

theorem refuse_reached (maxDeliver : Nat) (h : Handle) (m : Malformed) (s : γ × Log) :
    let r := (source.guarded guard).refuse maxDeliver h m s
    r.2.2.2 = s.2.reached (.reject h m r.1 r.2.1) := by
  have hLetter := guarded_deadLetter guard s h m.raw m.reason.message
  obtain hRefuse | ⟨u, hOk, hRefuse⟩ | ⟨e, hError, hRefuse⟩ :=
    (source.guarded guard).refuse_cases maxDeliver h m s
  · simp only [hRefuse]
    obtain ⟨hAnswer, hLog⟩ | ⟨e, hAnswer, hLog⟩ := nak_passes guard s h
    · rw [hAnswer, hLog]
      rfl
    · rw [hAnswer, hLog]
      exact (reached_none (d := .reject h m none (.error e)) rfl rfl s.2).symm
  · obtain ⟨-, hAside⟩ | ⟨e, hError, -⟩ := hLetter
    · simp only [hRefuse]
      obtain ⟨hAnswer, hLog⟩ | ⟨e, hAnswer, hLog⟩ := ack_passes guard
        ((source.guarded guard).deadLetter s h m.raw m.reason.message).2 h
      · rw [hAnswer, hLog, hAside]
        rfl
      · rw [hAnswer, hLog, hAside]
        exact (reached_none (d := .reject h m (some (.ok u)) (.error e)) rfl rfl s.2).symm
    · rw [hOk] at hError
      cases hError
  · obtain ⟨hOk, -⟩ | ⟨e, -, hAside⟩ := hLetter
    · rw [hOk] at hError
      cases hError
    · simp only [hRefuse]
      obtain ⟨hAnswer, hLog⟩ | ⟨e', hAnswer, hLog⟩ := nak_passes guard
        ((source.guarded guard).deadLetter s h m.raw m.reason.message).2 h
      · rw [hAnswer, hLog, hAside]
        rfl
      · rw [hAnswer, hLog, hAside]
        exact (reached_none (d := .reject h m (some (.error e)) (.error e')) rfl rfl s.2).symm

/-- What a move means to the log: it rests while the worker lets go of nothing (or leaves), it hands
messages out, or messages that the worker had are settled. A settlement is committed unless the
commit fails or is still to come. -/
inductive Serves (l : Log) (c : Custody Waiting) :
    List Deed → Custody Waiting → Log → Prop where
  | rest {new c'} (hIdle : ∀ d ∈ new, d.IsIdle) (hOffsets : c'.offsets.Sublist c.offsets)
      (hSame : c'.leaving = false →
        c.leaving = false ∧ c'.offsets = c.offsets ∧ c'.given new = c.collected)
      (hInHand : c'.inHand.Sublist c.inHand) (hGiven : c'.given new <+: c.collected)
      (hOwing : c'.owing = c.owing) (hKept : c.inHand = [] → c'.offsets = c.offsets) :
      Serves l c new c' l
  | handOut {new c' l' ds} (hIdle : ∀ d ∈ new, d.IsIdle) (hOut : l.HandsOut ds l')
      (hOffsets : c'.offsets = c.offsets ++ Delivery.offsets ds) (hLeaving : c'.leaving = c.leaving)
      (hStays : c.leaving = false) (hInHand : c'.inHand = c.inHand ++ ds)
      (hGiven : c'.given new = c.collected ++ ds) (hOwing : c'.owing = c.owing) :
      Serves l c new c' l'
  | settle {d c' l'} (hPartition : ∀ h ∈ d.handles, h.partition = 0)
      (hOffsets : c.offsets.Perm (d.handles.map (·.offset) ++ c'.offsets))
      (hLeaving : c'.leaving = c.leaving)
      (hLog : l' = l.reached d ∧ (c'.owing = true ∨ ∃ e, .commit (.error e) ∈ d.calls) ∨
        l' = (source.commit (l.reached d)).2)
      (hInHand : c'.inHand.Sublist c.inHand) (hGiven : c'.given [d] = c.collected)
      (hRefused : ∀ h m, d.refusal? = some (h, m) → ⟨h, .error m⟩ ∈ c.coming) :
      Serves l c [d] c' l'

theorem batch_settled {c : Custody Waiting} {d : Deed} {batch kept : Batch}
    (hHeld : c.held = batch ++ kept) (hHandles : d.handles = batch.handles) :
    c.offsets.Perm (d.handles.map (·.offset) ++ { c with held := kept }.offsets) := by
  rw [Custody.offsets_settle hHeld, hHandles, Batch.offsets, Batch.handles, List.map_map]
  exact .rfl

/-- A fetch from a log answers or waits, so the worker does not leave for it. -/
theorem fetch_leaving (l : Log) (max : Nat) (wait : Duration) (c : Custody Waiting) :
    (c.fetched (source.fetch l max wait).1).leaving = c.leaving := by
  simp only [source]
  split <;> rfl

theorem move_faithful {settings : WorkerSettings} {c c' : Custody Waiting} {s s' : γ × Log}
    {deeds new : List Deed} (hSound : s.2.Sound) (h : c.Faithful s.2.book deeds)
    (hMove : Custody.Move (source.guarded guard) settings c s new c' s') :
    c'.Faithful s.2.book (deeds ++ new) := by
  refine h.move hMove ?_ ?_
  · intro max wait
    obtain ⟨hFetch, -⟩ | ⟨obstacle, hFetch, -⟩ := guard.fetch_cases source s max wait
    · rw [hFetch]
      exact (HandsOut.fetch hSound max wait).isFrom
    · rw [hFetch]
      cases obstacle <;> exact List.forall_mem_nil _
  · intro call hCall d hd
    obtain ⟨fresh, hDeliveries, hOut⟩ := HandsOut.resume hSound call
    have hBrought : d ∈ call.collected ++ fresh := hDeliveries ▸ hd
    rcases List.mem_append.mp hBrought with hd | hd
    · refine h.collected d ?_
      rw [Custody.collected, Option.mem_def.mp hCall]
      exact hd
    · exact hOut.isFrom d hd

theorem fetch_serves {c : Custody Waiting} {s : γ × Log} (hSound : s.2.Sound) (hCall : c.call = none)
    (hComing : c.coming = []) (hStays : c.leaving = false) (max : Nat) (wait : Duration) :
    Serves s.2 c (.ask max wait :: ((source.guarded guard).fetch s max wait).1.deeds)
      (c.fetched ((source.guarded guard).fetch s max wait).1)
      ((source.guarded guard).fetch s max wait).2.2 := by
  have hIdle : ∀ f : Fetch Waiting, ∀ d ∈ Deed.ask max wait :: f.deeds, d.IsIdle :=
    fun f => List.forall_mem_cons.mpr ⟨⟨rfl, rfl, rfl⟩, f.deeds_idle⟩
  have hCollected : c.collected = [] := by simp [Custody.collected, hCall]
  have hOffsets : c.offsets = c.held.offsets := by
    simp [Custody.offsets, hComing, hCollected]
  have hInHand : c.inHand = [] := by simp [Custody.inHand, hComing, hCollected]
  obtain ⟨hFetch, hLog⟩ | ⟨obstacle, hFetch, hLog⟩ := guard.fetch_cases source s max wait
  · rw [hFetch, hLog]
    refine .handOut (hIdle _) (.fetch hSound max wait) ?_ ?_ hStays ?_ ?_ (c.fetched_owing _)
    · rw [Custody.offsets_fetched hComing, hOffsets]
    · exact fetch_leaving s.2 max wait c
    · rw [Custody.inHand_fetched hComing, hInHand, List.nil_append]
    · rw [hCollected, List.nil_append]
      exact c.given_fetched _
  · rw [hFetch, hLog]
    have hNone : (obstacle.fetch : Fetch Waiting).deliveries = [] := by cases obstacle <;> rfl
    have hSame : (c.fetched (obstacle.fetch : Fetch Waiting)).offsets = c.offsets := by
      rw [Custody.offsets_fetched hComing, hOffsets, hNone]
      simp
    have hGiven : (c.fetched (obstacle.fetch : Fetch Waiting)).given
        (.ask max wait :: (obstacle.fetch : Fetch Waiting).deeds) = c.collected := by
      rw [hCollected]
      exact (c.given_fetched _).trans hNone
    refine .rest (hIdle _) ?_ ?_ ?_ ?_ (c.fetched_owing _) fun _ => hSame
    · exact hSame ▸ List.Sublist.refl _
    · exact fun _ => ⟨hStays, hSame, hGiven⟩
    · rw [Custody.inHand_fetched hComing, hNone]
      exact List.nil_sublist _
    · exact hGiven ▸ List.prefix_rfl

theorem move_serves {settings : WorkerSettings} {c c' : Custody Waiting} {s s' : γ × Log}
    {deeds new : List Deed} (hSound : s.2.Sound) (hFaithful : c.Faithful s.2.book deeds)
    (hMove : Custody.Move (source.guarded guard) settings c s new c' s') :
    Serves s.2 c new c' s'.2 := by
  have hPartition : ∀ d ∈ new, ∀ h ∈ d.handles, h.partition = 0 := fun d hd =>
    partition_of_faithful (move_faithful guard hSound hFaithful hMove) (List.mem_append_right _ hd)
  cases hMove with
  | rest =>
    refine .rest (List.forall_mem_nil _) (List.Sublist.refl _) ?_ (List.Sublist.refl _) ?_ rfl
      fun _ => rfl
    · exact fun h => ⟨h, rfl, rfl⟩
    · exact List.prefix_rfl
  | leave =>
    refine .rest (List.forall_mem_nil _) ?_ ?_ ?_ (List.nil_prefix) rfl ?_
    · exact List.Sublist.append_left (List.nil_sublist _) _
    · intro hStays
      cases hStays
    · exact List.Sublist.append_left (List.nil_sublist _) _
    · intro hNone
      rw [Custody.offsets, Custody.offsets, (List.append_eq_nil_iff.mp hNone).2]
      rfl
  | accept s hComing hParcel =>
    obtain rfl := Delivery.parcel?_eq_some hParcel
    have hOffsets := Custody.offsets_accept hComing
    refine .rest (List.forall_mem_singleton.mpr ⟨rfl, rfl, rfl⟩) ?_ (fun h => ⟨h, hOffsets, rfl⟩) ?_
      List.prefix_rfl rfl fun _ => hOffsets
    · exact hOffsets ▸ List.Sublist.refl _
    · rw [Custody.inHand, Custody.inHand, hComing]
      exact List.Sublist.append_right (List.sublist_cons_self _ _) _
  | fetch s max wait hCall hComing _ _ hStays =>
    exact fetch_serves guard hSound hCall hComing hStays max wait
  | resume s call hCall hComing hStays =>
    obtain ⟨fresh, hDeliveries, hOut⟩ := HandsOut.resume hSound call
    have hCollected : c.collected = call.collected := by simp [Custody.collected, hCall]
    refine .handOut (Fetch.deeds_idle _) hOut ?_ rfl hStays ?_ ?_ (c.fetched_owing _)
    · rw [Custody.offsets_fetched hComing, Custody.offsets, hComing, hCollected]
      simp only [Source.guarded, hDeliveries]
      simp
    · rw [Custody.inHand_fetched hComing, Custody.inHand, hComing, hCollected]
      exact hDeliveries
    · rw [hCollected]
      exact (c.given_fetched _).trans hDeliveries
  | reject s hComing hRefusal =>
    obtain rfl := Delivery.refusal?_eq_some hRefusal
    refine .settle (hPartition _ (List.mem_singleton_self _)) (Custody.offsets_take hComing) rfl
      (.inl ⟨refuse_reached guard settings.maxDeliver _ _ s, .inl rfl⟩) ?_ rfl ?_
    · rw [Custody.inHand, Custody.inHand, hComing]
      exact List.Sublist.append_right (List.sublist_cons_self _ _) _
    · intro h m hSame
      obtain ⟨rfl, rfl⟩ := Prod.mk.inj (Option.some.inj hSame)
      rw [hComing]
      exact List.mem_cons_self
  | commit s =>
    refine .settle (hPartition _ (List.mem_singleton_self _)) .rfl rfl ?_ (List.Sublist.refl _) rfl
      fun _ _ hRefusal => by cases hRefusal
    rw [reached_none rfl rfl]
    obtain ⟨-, hLog⟩ | ⟨e, hAnswer, hLog⟩ := guarded_commit guard s
    · exact .inr hLog
    · exact .inl ⟨hLog, .inr ⟨e, hAnswer ▸ List.mem_singleton_self _⟩⟩
  | store s hHeld =>
    rename_i batch kept failures _ _
    refine .settle (hPartition _ (List.mem_singleton_self _)) (batch_settled hHeld ?_) rfl ?_
      (List.Sublist.refl _) rfl fun _ _ hRefusal => by cases hRefusal
    · simp [Deed.handles, Deed.batch, refusal?]
    · have hEach := each_ack guard batch s
      obtain ⟨-, hLog⟩ | ⟨e, hAnswer, hLog⟩ :=
        guarded_commit guard (Source.each (source.guarded guard).ack batch s).2
      · rw [hEach] at hLog
        exact .inr hLog
      · rw [hEach] at hLog
        refine .inl ⟨hLog, .inr ⟨e, ?_⟩⟩
        rw [hAnswer]
        exact List.mem_append_right _ (List.mem_singleton_self _)
  | giveUp s hHeld =>
    rename_i batch kept failures _ _
    refine .settle (hPartition _ (List.mem_singleton_self _)) (batch_settled hHeld ?_) rfl ?_
      (List.Sublist.refl _) rfl fun _ _ hRefusal => by cases hRefusal
    · simp [Deed.handles, Deed.batch, refusal?]
    · have hEach := each_nak guard batch s
      obtain ⟨-, hLog⟩ | ⟨e, hAnswer, hLog⟩ :=
        guarded_commit guard (Source.each (source.guarded guard).nak batch s).2
      · rw [hEach] at hLog
        exact .inr hLog
      · rw [hEach] at hLog
        refine .inl ⟨hLog, .inr ⟨e, ?_⟩⟩
        rw [hAnswer]
        exact List.mem_append_right _ (List.mem_singleton_self _)

section Reached

variable {l : Log} (h : l.Sound) {d : Deed}

include h

theorem Sound.reached (d : Deed) : (l.reached d).Sound :=
  (h.settle d.acked d.returned).aside _

variable (hPartition : ∀ handle ∈ d.handles, handle.partition = 0) {o : Int}

include hPartition

theorem Sound.mem_pending_reached :
    o ∈ (l.reached d).pendingOffsets ↔ o ∈ l.pendingOffsets ∧ o ∉ d.acked.map (·.offset) :=
  h.mem_pending_settle fun handle hh => hPartition handle (d.acked_subset hh)

theorem Sound.mem_open_reached :
    o ∈ openOffsets (l.reached d).ledger.pending ↔
      (o ∈ openOffsets l.ledger.pending ∧ o ∉ d.acked.map (·.offset)) ∧
        o ∉ d.returned.map (·.offset) :=
  h.mem_open_settle (fun handle hh => hPartition handle (d.acked_subset hh))
    fun handle hh => hPartition handle (d.returned_subset hh)

theorem Sound.mem_queued_reached (ho : o ∈ queuedOffsets (l.reached d).ledger.pending) :
    o ∈ queuedOffsets l.ledger.pending ∨ o ∈ d.returned.map (·.offset) :=
  h.mem_queued_settle (fun handle hh => hPartition handle (d.acked_subset hh))
    (fun handle hh => hPartition handle (d.returned_subset hh)) ho

end Reached

namespace Serves

variable {l l' : Log} {c c' : Custody Waiting} {new : List Deed}

theorem records (h : l.Serves c new c' l') (hSound : l.Sound) : l'.records = l.records := by
  cases h with
  | rest => rfl
  | handOut _ hOut => exact hOut.records
  | settle _ _ _ hLog =>
    obtain ⟨rfl, -⟩ | rfl := hLog
    · rfl
    · exact (hSound.reached _).commit.2.2.1

theorem sound (h : l.Serves c new c' l') (hSound : l.Sound) : l'.Sound := by
  cases h with
  | rest => exact hSound
  | handOut _ hOut => exact hOut.sound
  | settle _ _ _ hLog =>
    obtain ⟨rfl, -⟩ | rfl := hLog
    · exact hSound.reached _
    · exact (hSound.reached _).commit.1

theorem committed_le (h : l.Serves c new c' l') (hSound : l.Sound) :
    l.committed ≤ l'.committed := by
  cases h with
  | rest => exact Nat.le_refl _
  | handOut _ hOut => exact Nat.le_of_eq hOut.committed.symm
  | settle _ _ _ hLog =>
    obtain ⟨rfl, -⟩ | rfl := hLog
    · exact Nat.le_refl _
    · obtain ⟨-, hFrontier, -⟩ := (hSound.reached _).commit
      rw [hFrontier]
      exact (hSound.reached _).committed_le_frontier

end Serves

/-- What was read is pending or among these offsets, and what is committed is among these. -/
structure Covered (l : Log) (P : Int → Prop) : Prop where
  read : ∀ o : Nat, o < l.position → (o : Int) ∈ l.pendingOffsets ∨ P o
  committed : ∀ o : Nat, o < l.committed → P o

namespace Covered

variable {l l' : Log} {P Q : Int → Prop}

theorem start (records : Array (List UInt8)) : Covered { records } P :=
  ⟨fun _ ho => absurd ho (Nat.not_lt_zero _), fun _ ho => absurd ho (Nat.not_lt_zero _)⟩

theorem append (h : l.Covered P) (record : List UInt8) : (l.append record).Covered P :=
  ⟨h.read, h.committed⟩

/-- After a restart nothing counts as read that is not committed. -/
theorem restart (h : l.Covered P) : l.restart.Covered P :=
  ⟨fun o ho => .inr (h.committed o ho), h.committed⟩

theorem mono (h : l.Covered P) (hOld : ∀ o, P o → Q o) : l.Covered Q :=
  ⟨fun o ho => (h.read o ho).imp_right (hOld o), fun o ho => hOld o (h.committed o ho)⟩

theorem handOut {ds : List Delivery} (h : l.Covered P) (hOut : l.HandsOut ds l') :
    l'.Covered P := by
  constructor
  · intro o ho
    rw [hOut.pending]
    by_cases hRead : o < l.position
    · exact (h.read o hRead).imp_left .inl
    · left
      right
      omega
  · rw [hOut.committed]
    exact h.committed

theorem reached (h : l.Covered P) (hSound : l.Sound) {d : Deed}
    (hPartition : ∀ handle ∈ d.handles, handle.partition = 0)
    (hNew : ∀ handle ∈ d.acked, P handle.offset) : (l.reached d).Covered P := by
  refine ⟨fun o ho => ?_, h.committed⟩
  obtain hPending | hOld := h.read o ho
  · by_cases hIn : (o : Int) ∈ d.acked.map (·.offset)
    · obtain ⟨handle, hHandle, hOffset⟩ := List.mem_map.mp hIn
      exact .inr (hOffset ▸ hNew handle hHandle)
    · left
      exact (hSound.mem_pending_reached hPartition).mpr ⟨hPending, hIn⟩
  · exact .inr hOld

/-- Below the frontier nothing is pending. -/
theorem commit (h : l.Covered P) (hSound : l.Sound) : (source.commit l).2.Covered P := by
  obtain ⟨-, hCommitted, -, hPosition, -, hPending⟩ := hSound.commit
  obtain ⟨hLe, hLowest⟩ := hSound.frontier_le
  refine ⟨?_, ?_⟩
  · rw [pendingOffsets, hPending, hPosition]
    exact h.read
  · rw [hCommitted]
    intro o ho
    refine (h.read o (by omega)).resolve_left fun hIn => ?_
    have hAbove := hLowest o hIn
    omega

/-- A move keeps a log covered if what it acknowledges is covered too. -/
theorem serves {c c' : Custody Waiting} {new : List Deed} (h : l.Covered P)
    (hServes : l.Serves c new c' l') (hSound : l.Sound)
    (hNew : ∀ d ∈ new, ∀ handle ∈ d.acked, P handle.offset) : l'.Covered P := by
  cases hServes with
  | rest => exact h
  | handOut _ hOut => exact h.handOut hOut
  | settle hPartition _ _ hLog =>
    have hReached := h.reached hSound hPartition (hNew _ (List.mem_singleton_self _))
    obtain ⟨rfl, -⟩ | rfl := hLog
    · exact hReached
    · exact hReached.commit (hSound.reached _)

end Covered

end Log

end EventIngest
