import EventIngest.Proofs.Alike
import EventIngest.Proofs.Guarded
import EventIngest.Proofs.PoolTimed
import EventIngest.Proofs.Strides
import Mathlib.Data.List.Perm.Basic
/-!
# Workers of a pool do not interfere

The workers of a pool share the store, the counters and the end of the work. If each has a part of
the sources for itself and the answers of the store depend on nothing but the calls and their times,
then a worker does in the pool what it does alone, at the same times and with the same results: as
long as no source asks for an end of the work, it sees nothing of the others.
-/
namespace EventIngest

@[simp] def Happening.isStall : Happening → Bool
  | .fetchStalled => true
  | _ => false

namespace Pool

variable {α σ ρ τ φ ψ : Type}

def entriesOf (i : Nat) (journal : List (Instant × Event)) : List (Instant × Happening) :=
  journal.filterMap fun e => if e.2.worker = some i then some (e.1, e.2.happening) else none

theorem entriesOf_append (i : Nat) (a b : List (Instant × Event)) :
    entriesOf i (a ++ b) = entriesOf i a ++ entriesOf i b := List.filterMap_append

theorem entriesOf_self (i : Nat) (now : Instant) (journal : List Happening) :
    entriesOf i ((journal.map (⟨some i, ·⟩ : Happening → Event)).map (now, ·))
      = journal.map (now, ·) := by
  simp [entriesOf, List.filterMap_map]

theorem entriesOf_other {i j : Nat} (h : j ≠ i) (now : Instant) (journal : List Happening) :
    entriesOf i ((journal.map (⟨some j, ·⟩ : Happening → Event)).map (now, ·)) = [] := by
  simp [entriesOf, List.filterMap_map, h]

namespace Timed

/-- What a worker sees of the next turn: its own move, the passing of time, the end of the work, and
the change of its source. -/
def seen (i : Nat) (c : Timed σ τ φ ψ) : Turn α → List (Worker.Timed.Turn α τ)
  | .move m => if m = .work i ∧ c.pool.isEnabled c.now m = true then [.go] else []
  | .wait t => if c.mayWait t then [.wait t] else []
  | .cancel => [.cancel]
  | .outside j a => if j = i then [.outside a] else []

/-- What a worker sees of a course of the pool. -/
def share (crew : Crew σ ρ τ φ ψ) (act : α → ρ → ρ) (i : Nat) :
    List (Turn α) → Timed σ τ φ ψ → List (Worker.Timed.Turn α τ)
  | [], _ => []
  | t :: turns, c => c.seen i t ++ share crew act i turns (c.turn crew act t)

end Timed

/-- A worker of the pool and a worker alone: they are in the same state at the same time, with the
same source, and did the same at the same times. The pool notes nothing more of a worker than that it
was lost, and this at its end. -/
structure Mirrors (crew : Crew σ ρ τ φ ψ) (i : Nat) (c : Timed σ τ φ ψ)
    (d : Worker.Timed ρ τ φ ψ) : Prop where
  now : d.now = c.now
  cancelled : d.scene.cancelled = c.pool.cancelled
  worker : Stands crew.settings c.pool.workers[i]? d.scene.worker
  source : d.scene.source = (crew.part i).get c.pool.source
  entries : ∃ losses, entriesOf i c.journal = d.journal ++ losses ∧
    (∀ e ∈ losses, e.2 = .notice .workerLost) ∧ (c.pool.phase ≠ .ended → losses = [])

/-- What holds of a pool at any time whose store is steady. -/
structure Orderly (crew : Crew σ ρ τ φ ψ) (P : τ → Prop) (c : Timed σ τ φ ψ) : Prop where
  store : P c.pool.store
  fits : c.pool.workers.length ≤ crew.size
  staffed : c.pool.phase = .joining ∨ c.pool.phase = .ended → c.pool.workers.length = crew.size
  ended : c.pool.phase = .ended → c.pool.hasEnded = true
  stores : ∀ e ∈ c.journal, e.2.happening.storedRows?.isSome = true →
    ∃ i < crew.size, e.2.worker = some i

section Interference

variable {crew : Crew σ ρ τ φ ψ} {P : τ → Prop} {c : Timed σ τ φ ψ} {i : Nat}
  {d : Worker.Timed ρ τ φ ψ}

theorem orderly_start (crew : Crew σ ρ τ φ ψ) (source : σ) {store : τ} (h : P store) :
    Orderly crew P (Timed.start source store) :=
  ⟨h, Nat.zero_le _, nofun, nofun, List.forall_mem_nil _⟩

/-- A worker that is ready to move has not ended. -/
theorem not_ended_of_ready {p : Pool σ τ φ ψ} (hEnded : p.phase = .ended → p.hasEnded = true)
    {w : Worker φ ψ} (hw : w ∈ p.workers) {now : Instant}
    (hReady : w.isReady now p.cancelled = true) : p.phase ≠ .ended := by
  intro hPhase
  have hOver : w.hasEnded = true := List.all_eq_true.mp (hEnded hPhase) w hw
  obtain hStopped | hCrashed := Worker.ended_cases hOver
  · simp [Worker.isReady, hStopped] at hReady
  · simp [Worker.isReady, hCrashed] at hReady

theorem moved_work (setup : Setup σ τ φ ψ) {w : Worker φ ψ} (h : c.pool.workers[i]? = some w) :
    c.moved setup (.work i) = ⟨c.now, (work setup c.now i w c.pool).1,
      c.journal ++ (work setup c.now i w c.pool).2.map (c.now, ·)⟩ := by
  simp only [Timed.moved, Pool.apply, h]

theorem Orderly.work (hSteady : crew.store.Steady P) (h : Orderly crew P c) {w : Worker φ ψ}
    (hWorker : c.pool.workers[i]? = some w) (hReady : w.isReady c.now c.pool.cancelled = true) :
    Orderly crew P (c.moved crew.pool (.work i)) := by
  have hPhase := not_ended_of_ready h.ended (List.mem_of_getElem? hWorker) hReady
  have hLength : (c.pool.workers.set i (Worker.step (crew.pool.worker i) c.now
      (c.pool.scene w)).1.worker).length = c.pool.workers.length := List.length_set
  obtain ⟨hStep, -⟩ := Worker.step_alike (crew.pool.worker i) c.now hSteady
    (⟨rfl, rfl, rfl, h.store, h.store⟩ : (c.pool.scene w).Alike P (c.pool.scene w))
  rw [moved_work crew.pool hWorker]
  refine ⟨hStep.store, hLength ▸ h.fits, fun hp => hLength.trans (h.staffed hp),
    fun hp => absurd hp hPhase, List.forall_mem_append.mpr ⟨h.stores, fun e he _ => ?_⟩⟩
  obtain ⟨entry, hEntry, rfl⟩ := List.mem_map.mp he
  obtain ⟨happening, -, rfl⟩ := List.mem_map.mp hEntry
  exact ⟨i, Nat.lt_of_lt_of_le (List.getElem?_eq_some_iff.mp hWorker).1 h.fits, rfl⟩

theorem Orderly.turn (hSteady : crew.store.Steady P) (h : Orderly crew P c) (act : α → ρ → ρ)
    (t : Timed.Turn α) : Orderly crew P (c.turn crew act t) := by
  have hSame : ∀ {p : Pool σ τ φ ψ} {new : List (Instant × Event)}, p.workers = c.pool.workers →
      p.store = c.pool.store → (p.phase = .joining ∨ p.phase = .ended → c.pool.phase = .joining) →
      (p.phase = .ended → c.pool.hasEnded = true) →
      (∀ e ∈ new, e.2.happening.storedRows? = none) →
      Orderly crew P ⟨c.now, p, c.journal ++ new⟩ := by
    intro p new hWorkers hStore hPhase hEnded hNew
    refine ⟨hStore ▸ h.store, hWorkers ▸ h.fits, fun hp => ?_, fun hp => ?_, ?_⟩
    · rw [show p.workers = _ from hWorkers]
      exact h.staffed (.inl (hPhase hp))
    · rw [hasEnded, show p.workers = _ from hWorkers]
      exact hEnded hp
    · refine List.forall_mem_append.mpr ⟨h.stores, fun e he hRows => ?_⟩
      rw [hNew e he] at hRows
      cases hRows
  cases t with
  | cancel | outside _ _ => exact ⟨h.store, h.fits, h.staffed, h.ended, h.stores⟩
  | wait later =>
    simp only [Timed.turn]
    split
    · exact ⟨h.store, h.fits, h.staffed, h.ended, h.stores⟩
    · exact h
  | move m =>
    simp only [Timed.turn]
    split
    · rename_i hEnabled
      cases m with
      | begin =>
        refine hSame rfl rfl ?_ ?_ (List.forall_mem_singleton.mpr rfl)
        · rintro (hp | hp) <;> cases hp
        · intro hp
          cases hp
      | watch =>
        simp only [isEnabled, Bool.and_eq_true, beq_iff_eq] at hEnabled
        exact hSame rfl rfl (fun _ => hEnabled.1.1) (fun hp => h.ended hp) (List.forall_mem_nil _)
      | finish =>
        simp only [isEnabled, Bool.and_eq_true, beq_iff_eq] at hEnabled
        refine hSame rfl rfl (fun _ => hEnabled.1) (fun _ => hEnabled.2) fun e he => ?_
        obtain ⟨entry, hEntry, rfl⟩ := List.mem_map.mp he
        obtain hLost | hStopped := List.mem_append.mp hEntry
        · obtain ⟨j, -, rfl⟩ := List.mem_map.mp hLost
          rfl
        · obtain rfl := List.mem_singleton.mp hStopped
          rfl
      | spawn =>
        simp only [isEnabled, beq_iff_eq] at hEnabled
        simp only [Timed.moved, Pool.apply]
        split
        · rename_i hFree
          refine ⟨h.store, ?_, ?_, ?_, ?_⟩
          · rw [List.length_append, List.length_singleton]
            exact hFree
          · intro hp
            rw [hEnabled] at hp
            rcases hp with hp | hp <;> cases hp
          · intro hp
            rw [hEnabled] at hp
            cases hp
          · rw [List.map_nil, List.append_nil]
            exact h.stores
        · rename_i hFull
          refine ⟨h.store, h.fits, fun _ => ?_, (by intro hp; cases hp), ?_⟩
          · exact Nat.le_antisymm h.fits (Nat.le_of_not_lt hFull)
          · rw [List.map_nil, List.append_nil]
            exact h.stores
      | work j =>
        cases hWorker : c.pool.workers[j]? with
        | none => simp [isEnabled, hWorker] at hEnabled
        | some w =>
          simp only [isEnabled, hWorker, Option.map_some, Option.getD_some] at hEnabled
          exact h.work hSteady hWorker hEnabled
    · exact h

namespace Mirrors

theorem start (crew : Crew σ ρ τ φ ψ) (i : Nat) (source : σ) (store store' : τ) :
    Mirrors crew i (Timed.start source store)
      (Worker.Timed.start crew.settings ((crew.part i).get source) store') :=
  ⟨rfl, rfl, .inr ⟨rfl, .inl rfl⟩, rfl, [], rfl, List.forall_mem_nil _, fun _ => rfl⟩

/-- What a worker does not see. -/
theorem keep (h : Mirrors crew i c d) {p : Pool σ τ φ ψ} {new : List (Instant × Event)}
    (hWorker : Stands crew.settings p.workers[i]? d.scene.worker)
    (hSource : (crew.part i).get p.source = (crew.part i).get c.pool.source)
    (hCancelled : p.cancelled = c.pool.cancelled)
    (hNew : ∀ e ∈ entriesOf i new, e.2 = .notice .workerLost)
    (hPhase : p.phase ≠ .ended → c.pool.phase ≠ .ended ∧ entriesOf i new = []) :
    Mirrors crew i ⟨c.now, p, c.journal ++ new⟩ d := by
  obtain ⟨losses, hEntries, hLosses, hNone⟩ := h.entries
  refine ⟨h.now, h.cancelled.trans hCancelled.symm, hWorker, h.source.trans hSource.symm,
    losses ++ entriesOf i new, ?_, List.forall_mem_append.mpr ⟨hLosses, hNew⟩, fun hp => ?_⟩
  · rw [entriesOf_append, hEntries, List.append_assoc]
  · rw [hNone (hPhase hp).1, (hPhase hp).2, List.append_nil]

/-- The same, when the pool notes nothing of the worker and is not at its end. -/
theorem keep_quietly (h : Mirrors crew i c d) {p : Pool σ τ φ ψ} {new : List (Instant × Event)}
    (hWorker : Stands crew.settings p.workers[i]? d.scene.worker)
    (hSource : (crew.part i).get p.source = (crew.part i).get c.pool.source)
    (hCancelled : p.cancelled = c.pool.cancelled) (hNew : entriesOf i new = [])
    (hPhase : c.pool.phase ≠ .ended) : Mirrors crew i ⟨c.now, p, c.journal ++ new⟩ d :=
  h.keep hWorker hSource hCancelled (hNew ▸ List.forall_mem_nil _) fun _ => ⟨hPhase, hNew⟩

/-- Without the clock, the counters and the store a worker alone is seen as in the pool. -/
theorem shows (h : Mirrors crew i c d) :
    Shows crew.settings (crew.part i) i c.untimed
      ⟨⟨d.scene.worker, d.scene.source, c.pool.store, c.pool.counters, d.scene.cancelled⟩,
        journalOf i c.untimed.journal⟩ :=
  ⟨h.worker, h.source, rfl, rfl, h.cancelled, rfl⟩

theorem isReady_eq (h : Mirrors crew i c d) {w : Worker φ ψ}
    (hWorker : c.pool.workers[i]? = some w) : d.isReady = w.isReady c.now c.pool.cancelled := by
  rw [Worker.Timed.isReady, h.now]
  exact h.shows.isReady_eq hWorker c.now

/-- A worker makes in the pool the step that it makes alone. -/
theorem work_self (hSeparate : crew.Separate) (hSteady : crew.store.Steady P)
    (hOrderly : Orderly crew P c) (h : Mirrors crew i c d) (hStore : P d.scene.store)
    {w : Worker φ ψ} (hWorker : c.pool.workers[i]? = some w)
    (hReady : w.isReady c.now c.pool.cancelled = true) :
    Mirrors crew i (c.moved crew.pool (.work i)) (d.moved (crew.worker i)) ∧
      P (d.moved (crew.worker i)).scene.store := by
  have hPhase := not_ended_of_ready hOrderly.ended (List.mem_of_getElem? hWorker) hReady
  have hLess : i < c.pool.workers.length := (List.getElem?_eq_some_iff.mp hWorker).1
  obtain ⟨losses, hEntries, -, hNone⟩ := h.entries
  obtain ⟨hScene, hJournal⟩ := Worker.step_alike (crew.worker i) c.now hSteady
    (⟨rfl, rfl, rfl, hStore, hOrderly.store⟩ : d.scene.Alike P
      ⟨d.scene.worker, d.scene.source, c.pool.store, c.pool.counters, d.scene.cancelled⟩)
  have hStep := h.shows.step_eq hSeparate hWorker c.now
  rw [hStep] at hScene hJournal
  rw [moved_work crew.pool hWorker]
  simp only [Worker.Timed.moved, h.now]
  refine ⟨⟨rfl, hScene.cancelled, .inl ?_, hScene.source, [], ?_, List.forall_mem_nil _,
    fun _ => rfl⟩, hScene.store⟩
  · rw [hScene.worker]
    exact List.getElem?_set_self hLess
  · rw [entriesOf_append, hEntries, hNone hPhase, List.append_nil, List.append_nil, hJournal]
    exact congrArg (d.journal ++ ·) (entriesOf_self i c.now _)

/-- A worker sees nothing of what another one does. -/
theorem work_other (hSeparate : crew.Separate) (hOrderly : Orderly crew P c)
    (h : Mirrors crew i c d) {j : Nat} (hOther : i ≠ j) {w : Worker φ ψ}
    (hWorker : c.pool.workers[j]? = some w) {journal : List Happening} {deeds : List Deed}
    (hChronicle : Worker.Chronicle crew.settings w journal deeds)
    (hReady : w.isReady c.now c.pool.cancelled = true)
    (hStall : .fetchStalled ∉ (Worker.step (crew.pool.worker j) c.now (c.pool.scene w)).2) :
    Mirrors crew i (c.moved crew.pool (.work j)) d := by
  have hCancelled : (Worker.step (crew.pool.worker j) c.now (c.pool.scene w)).1.cancelled
      = c.pool.cancelled := by
    rw [Bool.eq_iff_iff, Worker.step_cancelled_iff]
    exact or_iff_left hStall
  rw [moved_work crew.pool hWorker]
  apply h.keep_quietly
  · have hSame : (c.pool.workers.set j (Worker.step (crew.pool.worker j) c.now
        (c.pool.scene w)).1.worker)[i]? = c.pool.workers[i]? := List.getElem?_set_ne (Ne.symm hOther)
    exact hSame ▸ h.worker
  · exact part_step_other hSeparate hOther (p := c.pool) hChronicle c.now
  · exact hCancelled
  · exact entriesOf_other (Ne.symm hOther) c.now _
  · exact not_ended_of_ready hOrderly.ended (List.mem_of_getElem? hWorker) hReady

/-- When time passes in the pool it may pass for a worker alone. -/
theorem mayWait (hOrderly : Orderly crew P c) (h : Mirrors crew i c d) (hLess : i < crew.size)
    {t : Instant} (hWait : c.mayWait t = true) : d.mayWait t = true := by
  obtain ⟨hNone, hLater, hDues⟩ := Timed.mayWait_iff.mp hWait
  have hBegin := hNone .begin
  have hSpawn := hNone .spawn
  simp only [isEnabled, beq_eq_false_iff_ne, ne_eq] at hBegin hSpawn
  have hLength : c.pool.workers.length = crew.size := by
    apply hOrderly.staffed
    cases hPhase : c.pool.phase with
    | idle => exact absurd hPhase hBegin
    | spawning => exact absurd hPhase hSpawn
    | joining => exact .inl rfl
    | ended => exact .inr rfl
  obtain ⟨w, hWorker⟩ : ∃ w, c.pool.workers[i]? = some w :=
    ⟨_, List.getElem?_eq_getElem (hLength ▸ hLess)⟩
  have hReady := not_ready hNone (List.mem_of_getElem? hWorker)
  refine Worker.Timed.mayWait_iff.mpr ⟨?_, h.now ▸ hLater, ?_⟩
  · rw [h.isReady_eq hWorker, hReady]
  · have hStands := h.worker
    rw [hWorker] at hStands
    obtain hSame | ⟨-, hired, rfl⟩ := hStands.of_some
    · exact hSame ▸ hDues w (List.mem_of_getElem? hWorker)
    · cases hReady

/-- The moves of the pool itself, and of the others. -/
theorem move (hSeparate : crew.Separate) (hOrderly : Orderly crew P c) (h : Mirrors crew i c d)
    {m : Move} (hOther : m ≠ .work i) (hEnabled : c.pool.isEnabled c.now m = true)
    (hChronicles : ∀ (j : Nat) (w : Worker φ ψ), c.pool.workers[j]? = some w →
      ∃ journal deeds, Worker.Chronicle crew.settings w journal deeds)
    (hNone : ∀ e ∈ (c.moved crew.pool m).journal, e.2.happening.isStall = false) :
    Mirrors crew i (c.moved crew.pool m) d := by
  cases m with
  | begin =>
    simp only [isEnabled, beq_iff_eq] at hEnabled
    exact h.keep_quietly h.worker rfl rfl rfl (by simp [hEnabled])
  | watch =>
    simp only [isEnabled, Bool.and_eq_true, beq_iff_eq] at hEnabled
    exact h.keep_quietly h.worker rfl rfl rfl (by simp [hEnabled.1.1])
  | spawn =>
    simp only [isEnabled, beq_iff_eq] at hEnabled
    simp only [Timed.moved, Pool.apply]
    split
    · exact h.keep_quietly (h.worker.hire c.now) rfl rfl rfl (by simp [hEnabled])
    · exact h.keep_quietly h.worker rfl rfl rfl (by simp [hEnabled])
  | finish =>
    refine h.keep h.worker rfl rfl (fun e he => ?_) fun hp => absurd rfl hp
    obtain ⟨entry, hEntry, hOwn⟩ := List.mem_filterMap.mp he
    obtain ⟨event, hEvent, rfl⟩ := List.mem_map.mp hEntry
    obtain hLost | hStopped := List.mem_append.mp hEvent
    · obtain ⟨j, -, rfl⟩ := List.mem_map.mp hLost
      simp only [Option.ite_none_right_eq_some, Option.some.injEq] at hOwn
      exact hOwn.2 ▸ rfl
    · obtain rfl := List.mem_singleton.mp hStopped
      simp at hOwn
  | work j =>
    have hj : i ≠ j := fun hSame => hOther (hSame ▸ rfl)
    cases hWorker : c.pool.workers[j]? with
    | none => simp [isEnabled, hWorker] at hEnabled
    | some w =>
      simp only [isEnabled, hWorker, Option.map_some, Option.getD_some] at hEnabled
      obtain ⟨journal, deeds, hChronicle⟩ := hChronicles j w hWorker
      refine h.work_other hSeparate hOrderly hj hWorker hChronicle hEnabled fun hStall => ?_
      rw [moved_work crew.pool hWorker] at hNone
      have hEntry := hNone (c.now, ⟨some j, .fetchStalled⟩) (List.mem_append_right _
        (List.mem_map_of_mem (List.mem_map_of_mem hStall)))
      cases hEntry

theorem turn (hSeparate : crew.Separate) (hSteady : crew.store.Steady P)
    (hOrderly : Orderly crew P c) (h : Mirrors crew i c d) (hStore : P d.scene.store)
    (hLess : i < crew.size) (act : α → ρ → ρ) (t : Timed.Turn α)
    (hChronicles : ∀ (j : Nat) (w : Worker φ ψ), c.pool.workers[j]? = some w →
      ∃ journal deeds, Worker.Chronicle crew.settings w journal deeds)
    (hNone : ∀ e ∈ (c.turn crew act t).journal, e.2.happening.isStall = false) :
    Mirrors crew i (c.turn crew act t) (d.run (crew.worker i) act (c.seen i t)) ∧
      P (d.run (crew.worker i) act (c.seen i t)).scene.store := by
  cases t with
  | cancel => exact ⟨⟨h.now, rfl, h.worker, h.source, h.entries⟩, hStore⟩
  | outside j a =>
    by_cases hj : j = i
    · subst hj
      simp only [Timed.seen, if_true]
      refine ⟨⟨h.now, h.cancelled, h.worker, ?_, h.entries⟩, hStore⟩
      exact (congrArg (act a) h.source).trans (hSeparate.holds j _ _).symm
    · simp only [Timed.seen, hj, if_false]
      refine ⟨⟨h.now, h.cancelled, h.worker, ?_, h.entries⟩, hStore⟩
      exact h.source.trans (hSeparate.other (Ne.symm hj) _ _).symm
  | wait later =>
    simp only [Timed.turn, Timed.seen]
    cases hWait : c.mayWait later with
    | false => exact ⟨h, hStore⟩
    | true =>
      have hAlone := h.mayWait hOrderly hLess hWait
      simp only [if_true, Worker.Timed.run, List.foldl_cons, List.foldl_nil, Worker.Timed.turn,
        hAlone]
      exact ⟨⟨rfl, h.cancelled, h.worker, h.source, h.entries⟩, hStore⟩
  | move m =>
    simp only [Timed.turn, Timed.seen] at hNone ⊢
    by_cases hEnabled : c.pool.isEnabled c.now m = true
    · rw [if_pos hEnabled] at hNone
      by_cases hOwn : m = .work i
      · subst hOwn
        simp only [hEnabled, and_self, if_true]
        cases hWorker : c.pool.workers[i]? with
        | none => simp [isEnabled, hWorker] at hEnabled
        | some w =>
          simp only [isEnabled, hWorker, Option.map_some, Option.getD_some] at hEnabled
          have hReady : d.isReady = true := (h.isReady_eq hWorker).trans hEnabled
          simp only [Worker.Timed.run, List.foldl_cons, List.foldl_nil, Worker.Timed.turn, hReady,
            if_true]
          exact h.work_self hSeparate hSteady hOrderly hStore hWorker hEnabled
      · simp only [hEnabled, hOwn, false_and, if_false, if_true]
        exact ⟨h.move hSeparate hOrderly hOwn hEnabled hChronicles hNone, hStore⟩
    · simp only [hEnabled, and_false, if_false, Bool.false_eq_true]
      exact ⟨h, hStore⟩

end Mirrors

section Run

variable {act : α → ρ → ρ} {source : σ} {store : τ}

theorem Tracked.timed_turn (hSeparate : crew.Separate)
    (h : Tracked crew act source store c.untimed) (t : Timed.Turn α) :
    Tracked crew act source store (c.turn crew act t).untimed := by
  obtain ⟨moves, hMoves⟩ := Timed.exists_turn_eq_untimed crew act t c
  rw [hMoves]
  exact h.run hSeparate moves

theorem Orderly.run (hSteady : crew.store.Steady P) (h : Orderly crew P c) (act : α → ρ → ρ)
    (turns : List (Timed.Turn α)) : Orderly crew P (c.run crew act turns) := by
  induction turns generalizing c with
  | nil => exact h
  | cons t turns ih => exact ih (h.turn hSteady act t)

theorem Mirrors.run (hSeparate : crew.Separate) (hSteady : crew.store.Steady P)
    (hTracked : Tracked crew act source store c.untimed) (hOrderly : Orderly crew P c)
    (h : Mirrors crew i c d) (hStore : P d.scene.store) (hLess : i < crew.size)
    (turns : List (Timed.Turn α))
    (hNone : ∀ e ∈ (c.run crew act turns).journal, e.2.happening.isStall = false) :
    Mirrors crew i (c.run crew act turns)
      (d.run (crew.worker i) act (Timed.share crew act i turns c)) := by
  induction turns generalizing c d with
  | nil => exact h
  | cons t turns ih =>
    obtain ⟨new, hNew⟩ := Timed.run_journal crew act turns (c.turn crew act t)
    have hFirst : ∀ e ∈ (c.turn crew act t).journal, e.2.happening.isStall = false :=
      fun e he => hNone e (hNew ▸ List.mem_append_left new he)
    obtain ⟨hMirrors, hKept⟩ := h.turn hSeparate hSteady hOrderly hStore hLess act t
      hTracked.chronicles hFirst
    rw [Timed.share, Worker.Timed.run_append]
    exact ih (hTracked.timed_turn hSeparate t) (hOrderly.turn hSteady act t) hMirrors hKept hNone

end Run

end Interference

/-- Only one member of the range can be the one that these belong to. -/
theorem flatMap_range_of_lt {β : Type} {n j : Nat} (h : j < n) (xs : List β) :
    ((List.range n).flatMap fun i => if j = i then xs else []) = xs := by
  induction n with
  | zero => cases h
  | succ n ih =>
    rw [List.range_succ, List.flatMap_append, List.flatMap_singleton]
    by_cases hj : j = n
    · subst hj
      have hNone : ((List.range j).flatMap fun i => if j = i then xs else []) = [] := by
        refine List.flatMap_eq_nil_iff.mpr fun i hi => if_neg ?_
        exact Ne.symm (Nat.ne_of_lt (List.mem_range.mp hi))
      rw [hNone, if_pos rfl, List.nil_append]
    · rw [ih (Nat.lt_of_le_of_ne (Nat.le_of_lt_succ h) hj), if_neg hj, List.append_nil]

/-- What was stored was stored by the workers. -/
theorem stored_perm {n : Nat} {journal : List (Instant × Event)}
    (h : ∀ e ∈ journal, e.2.happening.storedRows?.isSome = true → ∃ i < n, e.2.worker = some i) :
    (Journal.stored (journal.map (·.2.happening))).Perm
      ((List.range n).flatMap fun i => Journal.stored ((entriesOf i journal).map Prod.snd)) := by
  induction journal with
  | nil =>
    have hNone : ((List.range n).flatMap fun i =>
        Journal.stored ((entriesOf i []).map Prod.snd)) = [] :=
      List.flatMap_eq_nil_iff.mpr fun _ _ => rfl
    rw [hNone]
    rfl
  | cons e journal ih =>
    obtain ⟨hFirst, hRest⟩ := List.forall_mem_cons.mp h
    have hEntry : ∀ i, Journal.stored ((entriesOf i (e :: journal)).map Prod.snd)
        = (if e.2.worker = some i then e.2.happening.storedRows?.toList else [])
          ++ Journal.stored ((entriesOf i journal).map Prod.snd) := by
      intro i
      by_cases hOwn : e.2.worker = some i
      · have hCons : entriesOf i (e :: journal) = (e.1, e.2.happening) :: entriesOf i journal := by
          simp [entriesOf, hOwn]
        rw [hCons, List.map_cons, Journal.stored_cons, if_pos hOwn]
      · have hCons : entriesOf i (e :: journal) = entriesOf i journal := by simp [entriesOf, hOwn]
        rw [hCons, if_neg hOwn, List.nil_append]
    have hOne : ((List.range n).flatMap fun i =>
        if e.2.worker = some i then e.2.happening.storedRows?.toList else [])
          = e.2.happening.storedRows?.toList := by
      cases hRows : e.2.happening.storedRows? with
      | none => exact List.flatMap_eq_nil_iff.mpr fun i _ => ite_self _
      | some rows =>
        obtain ⟨j, hLess, hWorker⟩ := hFirst (by rw [hRows]; rfl)
        simp only [hWorker, Option.some.injEq]
        exact flatMap_range_of_lt hLess _
    simp only [hEntry]
    rw [List.map_cons, Journal.stored_cons]
    refine List.Perm.trans ?_ (List.flatMap_append_perm _ _ _)
    rw [hOne]
    exact (ih hRest).append_left _

/-- A worker alone, with what it sees of a course of the pool. -/
def alone (crew : Crew σ ρ τ φ ψ) (act : α → ρ → ρ) (source : σ) (store : τ)
    (turns : List (Timed.Turn α)) (i : Nat) : Worker.Timed ρ τ φ ψ :=
  Worker.Timed.run (crew.worker i) act (Timed.share crew act i turns (.start source store))
    (.start crew.settings ((crew.part i).get source) store)

/-- As long as no source asks for an end of the work, each worker of a pool does what it does alone,
also if others crash, and what the pool stores is what all of them store alone. -/
theorem workers_do_not_interfere {crew : Crew σ ρ τ φ ψ} (hSeparate : crew.Separate) {P : τ → Prop}
    (hSteady : crew.store.Steady P) (act : α → ρ → ρ) (source : σ) {store : τ} (hStore : P store)
    (turns : List (Timed.Turn α)) :
    let c := Timed.run crew act turns (.start source store)
    (∀ e ∈ c.journal, e.2.happening.isStall = false) →
      (∀ i < crew.size, Mirrors crew i c (alone crew act source store turns i)) ∧
      (Journal.stored (c.journal.map (·.2.happening))).Perm ((List.range crew.size).flatMap fun i =>
        Journal.stored ((alone crew act source store turns i).journal.map Prod.snd)) := by
  intro c hNone
  have hStart : Tracked crew act source store (Timed.start source store : Timed σ τ φ ψ).untimed :=
    tracked_run hSeparate act source store []
  have hOrderly := orderly_start crew source hStore
  have hMirrors : ∀ i < crew.size, Mirrors crew i c (alone crew act source store turns i) :=
    fun i hLess => (Mirrors.start crew i source store store).run hSeparate hSteady hStart hOrderly
      hStore hLess turns hNone
  refine ⟨hMirrors, (stored_perm (hOrderly.run hSteady act turns).stores).trans ?_⟩
  refine List.Perm.of_eq (List.flatMap_congr fun i hi => ?_)
  obtain ⟨losses, hEntries, hLosses, -⟩ := (hMirrors i (List.mem_range.mp hi)).entries
  have hNothing : Journal.stored (losses.map Prod.snd) = [] := by
    refine List.filterMap_eq_nil_iff.mpr fun e he => ?_
    obtain ⟨entry, hEntry, rfl⟩ := List.mem_map.mp he
    rw [hLosses entry hEntry]
    rfl
  rw [hEntries, List.map_append, Journal.stored_append, hNothing, List.append_nil]

/-- A worker with a queue and one with a log, that writes at most one event at a time each. -/
def queueAndLog :
    Crew (Nat → Faults × Broker) (Faults × Broker) PlannedStore Waiting (Option StoreError) :=
  ⟨{ batchSize := 1 }, 2, fun _ => Broker.source.guarded Faults.guard, ownPart, PlannedStore.store⟩

/-- The second fetch from the log crashes. -/
def crashingLog : Nat → Faults × Broker
  | 0 => ({}, .inl {})
  | _ => ({ crashingFetch := 2 }, .inr {})

def publish : Broker → List UInt8 → Broker
  | .inl q, payload => .inl (q.publish payload)
  | .inr l, record => .inr (l.append record)

/-- Both workers try to write an event at the start and a second later. -/
def retryingTurns : List (Timed.Turn (List UInt8)) :=
  [.outside 0 [123, 125], .outside 1 [123, 125], .move .begin, .move .spawn, .move .spawn,
    .move .spawn] ++ (List.replicate 4 [.move (.work 0), .move (.work 1)]).flatten
    ++ [.wait (.ofSeconds 1)] ++ (List.replicate 5 [.move (.work 0), .move (.work 1)]).flatten

/-- The store is down at the start, so that both workers write twice, and then one of them crashes. -/
theorem queue_unaffected_by_crash_of_log :
    let store : PlannedStore := { outages := [(0, 1)] }
    let c := Timed.run queueAndLog (behind publish) retryingTurns (.start crashingLog store)
    let single := alone queueAndLog (behind publish) crashingLog store retryingTurns
    (∀ e ∈ c.journal, e.2.happening.isStall = false) ∧
      c.pool.workers.map Worker.hasCrashed = [false, true] ∧ c.pool.counters.batches = 2 ∧
      (∀ i < 2, Mirrors queueAndLog i c (single i)) ∧
      (Journal.stored (c.journal.map (·.2.happening))).Perm ((List.range 2).flatMap fun i =>
        Journal.stored ((single i).journal.map Prod.snd)) := by
  intro store c single
  have hAll : (c.journal.all fun e => !e.2.happening.isStall) = true := by decide +kernel
  have hNone : ∀ e ∈ c.journal, e.2.happening.isStall = false :=
    fun e he => Bool.not_eq_true' _ ▸ List.all_eq_true.mp hAll e he
  refine ⟨hNone, by decide +kernel, by decide +kernel, ?_⟩
  exact workers_do_not_interfere (ownPart_separate ..) (PlannedStore.steady [(0, 1)])
    (behind publish) crashingLog ⟨rfl, rfl, rfl⟩ retryingTurns hNone

end Pool

end EventIngest
