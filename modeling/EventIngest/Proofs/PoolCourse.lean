import EventIngest.Pool
import EventIngest.Proofs.Course
import EventIngest.Proofs.Within
/-!
# Courses of a pool

The moves of a pool in any order in which they are enabled, with changes from outside between them.
If each worker has a part of the sources for itself, then each worker of the pool goes through a
course of its own, in which the other workers are others that use the store and the counters. So
what holds along every course of a worker holds of every worker of a pool.
-/
namespace EventIngest.Pool

open Journal
open Worker (idle Chronicle)

variable {α σ ρ τ φ ψ : Type}

inductive Turn (α τ : Type) where
  | move (now : Instant) (m : Move)
  | cancel
  | outside (i : Nat) (a : α)
  | store (t : τ)

/-- Workers that each have a part of the sources. -/
structure Crew (σ ρ τ φ ψ : Type) where
  settings : WorkerSettings
  size : Nat
  intake : Nat → Source ρ φ
  part : Nat → Part σ ρ
  store : Store τ ψ

namespace Crew

def pool (crew : Crew σ ρ τ φ ψ) : Setup σ τ φ ψ where
  settings := crew.settings
  size := crew.size
  intake i := (crew.intake i).within (crew.part i)
  store := crew.store

def worker (crew : Crew σ ρ τ φ ψ) (i : Nat) : Worker.Setup ρ τ φ ψ :=
  ⟨crew.settings, crew.intake i, crew.store⟩

/-- No part is changed through another one. -/
structure Separate (crew : Crew σ ρ τ φ ψ) : Prop where
  holds : ∀ i, (crew.part i).Holds
  other : ∀ {i j}, i ≠ j → ∀ w p, (crew.part i).get ((crew.part j).set p w) = (crew.part i).get w

end Crew

def ownPart (i : Nat) : Part (Nat → ρ) ρ where
  get w := w i
  set p w := fun j => if j = i then p else w j

theorem ownPart_separate (settings : WorkerSettings) (size : Nat) (intake : Nat → Source ρ φ)
    (store : Store τ ψ) : (⟨settings, size, intake, ownPart, store⟩ : Crew _ ρ τ φ ψ).Separate where
  holds _ _ _ := if_pos rfl
  other hOther _ _ := if_neg hOther

structure Course (σ τ φ ψ : Type) where
  pool : Pool σ τ φ ψ
  journal : List Event := []

def journalOf (i : Nat) (journal : List Event) : List Happening :=
  journal.filterMap fun e => if e.worker = some i then some e.happening else none

theorem journalOf_append (i : Nat) (a b : List Event) :
    journalOf i (a ++ b) = journalOf i a ++ journalOf i b := List.filterMap_append

theorem journalOf_self (i : Nat) (journal : List Happening) :
    journalOf i (journal.map (⟨some i, ·⟩)) = journal := by
  have hTold : (fun e : Event => if e.worker = some i then some e.happening else none)
      ∘ (⟨some i, ·⟩) = some := funext fun _ => if_pos rfl
  rw [journalOf, List.filterMap_map, hTold, List.filterMap_some]

theorem journalOf_other {i j : Nat} (h : j ≠ i) (journal : List Happening) :
    journalOf i (journal.map (⟨some j, ·⟩)) = [] := by
  simp [journalOf, List.filterMap_map, h]

/-- What a pool notes by itself is not a call of a worker. -/
theorem calls_journalOf_notices (i : Nat) {journal : List Event}
    (h : ∀ e ∈ journal, e.happening.isCall = false) : calls (journalOf i journal) = [] := by
  apply List.filter_eq_nil_iff.mpr
  intro happening hHappening
  obtain ⟨e, he, hEvent⟩ := List.mem_filterMap.mp hHappening
  split at hEvent
  · obtain rfl := Option.some.inj hEvent
    rw [h e he]
    exact Bool.false_ne_true
  · cases hEvent

namespace Course

def start (source : σ) (store : τ) : Course σ τ φ ψ := ⟨Pool.start source store, []⟩

def turn (crew : Crew σ ρ τ φ ψ) (act : α → ρ → ρ) (c : Course σ τ φ ψ) :
    Turn α τ → Course σ τ φ ψ
  | .move now m =>
    if c.pool.isEnabled now m then
      ⟨(c.pool.apply crew.pool now m).1, c.journal ++ (c.pool.apply crew.pool now m).2⟩
    else c
  | .cancel => { c with pool := { c.pool with cancelled := true } }
  | .outside i a =>
    { c with pool := { c.pool with
        source := (crew.part i).set (act a ((crew.part i).get c.pool.source)) c.pool.source } }
  | .store store => { c with pool := { c.pool with store } }

def run (crew : Crew σ ρ τ φ ψ) (act : α → ρ → ρ) (turns : List (Turn α τ))
    (c : Course σ τ φ ψ) : Course σ τ φ ψ := turns.foldl (turn crew act) c

end Course

/-- A worker as it goes through a course of its own, and as the pool has it. One that has not made
its first step may have been hired at any time, or not at all. -/
def Stands (settings : WorkerSettings) (hired : Option (Worker φ ψ)) (w : Worker φ ψ) : Prop :=
  hired = some w ∨
    (w = idle settings 0 ∧ (hired = none ∨ ∃ now, hired = some (idle settings now)))

/-- A course of a single worker is what is seen of a worker in a course of a pool. -/
structure Shows (settings : WorkerSettings) (part : Part σ ρ) (i : Nat) (c : Course σ τ φ ψ)
    (d : Worker.Course ρ τ φ ψ) : Prop where
  worker : Stands settings c.pool.workers[i]? d.scene.worker
  source : d.scene.source = part.get c.pool.source
  store : d.scene.store = c.pool.store
  counters : d.scene.counters = c.pool.counters
  cancelled : d.scene.cancelled = c.pool.cancelled
  did : calls d.journal = calls (journalOf i c.journal)

theorem Stands.hire {settings : WorkerSettings} {workers : List (Worker φ ψ)} {i : Nat}
    {w : Worker φ ψ} (h : Stands settings workers[i]? w) (now : Instant) :
    Stands settings (workers ++ [idle settings now])[i]? w := by
  obtain hw | ⟨hIdle, hw | ⟨hired, hw⟩⟩ := h
  · left
    rw [List.getElem?_append_left (List.getElem?_eq_some_iff.mp hw).1, hw]
  · right
    refine ⟨hIdle, ?_⟩
    have hLength := List.getElem?_eq_none_iff.mp hw
    rw [List.getElem?_append_right hLength]
    cases i - workers.length with
    | zero => exact .inr ⟨now, rfl⟩
    | succ n => exact .inl rfl
  · right
    refine ⟨hIdle, .inr ⟨hired, ?_⟩⟩
    rw [List.getElem?_append_left (List.getElem?_eq_some_iff.mp hw).1, hw]

theorem Stands.of_some {settings : WorkerSettings} {w v : Worker φ ψ}
    (h : Stands settings (some v) w) :
    v = w ∨ (w = idle settings 0 ∧ ∃ now, v = idle settings now) := by
  obtain hw | ⟨hIdle, hw | ⟨hired, hw⟩⟩ := h
  · exact .inl (Option.some.inj hw)
  · cases hw
  · exact .inr ⟨hIdle, hired, Option.some.inj hw⟩

section Tracking

variable {crew : Crew σ ρ τ φ ψ} {act : α → ρ → ρ} {source : σ} {store : τ} {c c' : Course σ τ φ ψ}
  {i : Nat} {d : Worker.Course ρ τ φ ψ}

/-- A move of a worker changes no part of another one. -/
theorem part_step_other (hSeparate : crew.Separate) {j : Nat} (hOther : i ≠ j) {p : Pool σ τ φ ψ}
    {w : Worker φ ψ} {journal : List Happening} {deeds : List Deed}
    (hChronicle : Chronicle crew.settings w journal deeds) (now : Instant) :
    (crew.part i).get (Worker.step (crew.pool.worker j) now (p.scene w)).1.source
      = (crew.part i).get p.source := by
  obtain ⟨new, hMove, -⟩ := Worker.step_chronicle (crew.pool.worker j) now (p.scene w) hChronicle
  have hKeeps : (crew.pool.intake j).Keeps
      fun s => (crew.part i).get s = (crew.part i).get p.source :=
    (crew.intake j).within_keeps fun w p hw => (hSeparate.other hOther w p).trans hw
  exact hMove.keeps hKeeps rfl

namespace Shows

theorem of_same {settings : WorkerSettings} {part : Part σ ρ} (h : Shows settings part i c d)
    (hWorkers : c'.pool.workers[i]? = c.pool.workers[i]?) (hSource : c'.pool.source = c.pool.source)
    (hStore : c'.pool.store = c.pool.store) (hCounters : c'.pool.counters = c.pool.counters)
    (hCancelled : c'.pool.cancelled = c.pool.cancelled)
    (hCalls : calls (journalOf i c'.journal) = calls (journalOf i c.journal)) :
    Shows settings part i c' d :=
  ⟨hWorkers ▸ h.worker, hSource ▸ h.source, hStore ▸ h.store, hCounters ▸ h.counters,
    hCancelled ▸ h.cancelled, hCalls ▸ h.did⟩

theorem step_eq (hSeparate : crew.Separate) (h : Shows crew.settings (crew.part i) i c d)
    {w : Worker φ ψ} (hWorker : c.pool.workers[i]? = some w) (now : Instant) :
    Worker.step (crew.worker i) now d.scene
      = Worker.restrict (crew.part i) (Worker.step (crew.pool.worker i) now (c.pool.scene w)) := by
  have hRestrict := Worker.step_restrict (crew.worker i) (hSeparate.holds i) now (c.pool.scene w)
  refine Eq.trans ?_ hRestrict.symm
  obtain ⟨⟨worker, source, store, counters, cancelled⟩, journal⟩ := d
  obtain ⟨hStands, rfl, rfl, rfl, rfl, -⟩ := h
  rw [hWorker] at hStands
  obtain rfl | ⟨rfl, hired, rfl⟩ := hStands.of_some
  · rfl
  · -- The first step restarts the timer, so it does not matter when the worker was hired.
    rfl

theorem isReady_eq (h : Shows crew.settings (crew.part i) i c d) {w : Worker φ ψ}
    (hWorker : c.pool.workers[i]? = some w) (now : Instant) :
    d.scene.worker.isReady now d.scene.cancelled = w.isReady now c.pool.cancelled := by
  have hStands := h.worker
  rw [hWorker] at hStands
  rw [h.cancelled]
  obtain rfl | ⟨hIdle, hired, rfl⟩ := hStands.of_some
  · rfl
  · rw [hIdle]
    rfl

/-- A move of a worker is the same move of the worker alone. -/
theorem work_self (hSeparate : crew.Separate) (h : Shows crew.settings (crew.part i) i c d)
    {w : Worker φ ψ} (hWorker : c.pool.workers[i]? = some w) {now : Instant}
    (hReady : w.isReady now c.pool.cancelled = true) (act : α → ρ → ρ) :
    Shows crew.settings (crew.part i) i
      ⟨(work crew.pool now i w c.pool).1, c.journal ++ (work crew.pool now i w c.pool).2⟩
      (d.turn (crew.worker i) act (.work now)) := by
  have hStep := h.step_eq hSeparate hWorker now
  have hLess : i < c.pool.workers.length := (List.getElem?_eq_some_iff.mp hWorker).1
  rw [← h.isReady_eq hWorker now] at hReady
  simp only [Worker.Course.turn, hReady, if_true, hStep]
  refine ⟨.inl ?_, rfl, rfl, rfl, rfl, ?_⟩
  · exact List.getElem?_set_self hLess
  · simp only [work, journalOf_append, journalOf_self, calls_append, h.did]
    rfl

/-- A move of another worker is a change that others make. -/
theorem work_other (hSeparate : crew.Separate) (h : Shows crew.settings (crew.part i) i c d)
    {j : Nat} (hOther : i ≠ j) {w : Worker φ ψ} {journal : List Happening} {deeds : List Deed}
    (hChronicle : Chronicle crew.settings w journal deeds) (now : Instant) (act : α → ρ → ρ) :
    ∃ more : List (Worker.Turn α τ), Shows crew.settings (crew.part i) i
      ⟨(work crew.pool now j w c.pool).1, c.journal ++ (work crew.pool now j w c.pool).2⟩
      (d.run (crew.worker i) act more) := by
  have hSource := part_step_other hSeparate hOther (p := c.pool) hChronicle now
  generalize hStep : Worker.step (crew.pool.worker j) now (c.pool.scene w) = r at hSource
  have hWorkers : (c.pool.workers.set j r.1.worker)[i]? = c.pool.workers[i]? :=
    List.getElem?_set_ne (Ne.symm hOther)
  have hCalls : calls (journalOf i (c.journal ++ r.2.map (⟨some j, ·⟩)))
      = calls (journalOf i c.journal) := by
    rw [journalOf_append, journalOf_other (Ne.symm hOther), List.append_nil]
  have hCancelled : c.pool.cancelled = true → r.1.cancelled = true := by
    intro hc
    rw [← hStep]
    exact Worker.step_cancelled (crew.pool.worker j) now hc
  simp only [work, hStep]
  cases hEnd : r.1.cancelled with
  | true =>
    refine ⟨[.store r.1.store, .counters r.1.counters, .cancel], ?_⟩
    exact ⟨hWorkers ▸ h.worker, h.source.trans hSource.symm, rfl, rfl, rfl, h.did.trans hCalls.symm⟩
  | false =>
    refine ⟨[.store r.1.store, .counters r.1.counters], ?_⟩
    refine ⟨hWorkers ▸ h.worker, h.source.trans hSource.symm, rfl, rfl, h.cancelled.trans ?_,
      h.did.trans hCalls.symm⟩
    cases hStart : c.pool.cancelled with
    | true => rw [hCancelled hStart] at hEnd
              cases hEnd
    | false => rfl

/-- What is seen of a worker after anything that happens in the pool. -/
theorem turn (hSeparate : crew.Separate) (h : Shows crew.settings (crew.part i) i c d)
    (hChronicles : ∀ (j : Nat) (w : Worker φ ψ), c.pool.workers[j]? = some w →
      ∃ journal deeds, Chronicle crew.settings w journal deeds) (act : α → ρ → ρ) (t : Turn α τ) :
    ∃ more : List (Worker.Turn α τ), Shows crew.settings (crew.part i) i (c.turn crew act t)
      (d.run (crew.worker i) act more) := by
  cases t with
  | cancel =>
    exact ⟨[.cancel], h.worker, h.source, h.store, h.counters, rfl, h.did⟩
  | store store =>
    exact ⟨[.store store], h.worker, h.source, rfl, h.counters, h.cancelled, h.did⟩
  | outside j a =>
    by_cases hj : i = j
    · subst hj
      refine ⟨[.outside a], h.worker, ?_, h.store, h.counters, h.cancelled, h.did⟩
      exact (congrArg (act a) h.source).trans (hSeparate.holds i _ _).symm
    · refine ⟨[], h.worker, ?_, h.store, h.counters, h.cancelled, h.did⟩
      exact h.source.trans (hSeparate.other hj _ _).symm
  | move now m =>
    simp only [Course.turn]
    split
    · rename_i hEnabled
      -- The notices of the pool itself are not among the calls of a worker.
      have hNotices : ∀ journal : List Event, (∀ e ∈ journal, e.happening.isCall = false) →
          calls (journalOf i (c.journal ++ journal)) = calls (journalOf i c.journal) := by
        intro journal hJournal
        rw [journalOf_append, calls_append, calls_journalOf_notices i hJournal, List.append_nil]
      cases m with
      | begin =>
        refine ⟨[], h.of_same rfl rfl rfl rfl rfl (hNotices _ ?_)⟩
        exact List.forall_mem_singleton.mpr rfl
      | watch => exact ⟨[], h.of_same rfl rfl rfl rfl rfl (hNotices [] (List.forall_mem_nil _))⟩
      | finish =>
        refine ⟨[], h.of_same rfl rfl rfl rfl rfl (hNotices _ ?_)⟩
        intro e he
        obtain he | he := List.mem_append.mp he
        · obtain ⟨j, -, rfl⟩ := List.mem_map.mp he
          rfl
        · obtain rfl := List.mem_singleton.mp he
          rfl
      | spawn =>
        simp only [Pool.apply]
        split
        · refine ⟨[], ?_, h.source, h.store, h.counters, h.cancelled, ?_⟩
          · exact h.worker.hire now
          · exact h.did.trans (hNotices [] (List.forall_mem_nil _)).symm
        · exact ⟨[], h.of_same rfl rfl rfl rfl rfl (hNotices [] (List.forall_mem_nil _))⟩
      | work j =>
        cases hWorker : c.pool.workers[j]? with
        | none => simp [isEnabled, hWorker] at hEnabled
        | some w =>
          simp only [isEnabled, hWorker, Option.map_some, Option.getD_some] at hEnabled
          simp only [Pool.apply, hWorker]
          by_cases hj : i = j
          · subst hj
            exact ⟨[.work now], h.work_self hSeparate hWorker hEnabled act⟩
          · obtain ⟨journal, deeds, hChronicle⟩ := hChronicles j w hWorker
            exact h.work_other hSeparate hj hChronicle now act
    · exact ⟨[], h⟩

end Shows

/-- Each worker of the pool is seen in a course of its own. -/
def Tracked (crew : Crew σ ρ τ φ ψ) (act : α → ρ → ρ) (source : σ) (store : τ)
    (c : Course σ τ φ ψ) : Prop :=
  ∀ i, ∃ turns : List (Worker.Turn α τ), Shows crew.settings (crew.part i) i c
    (Worker.Course.run (crew.worker i) act turns
      (Worker.Course.start crew.settings ((crew.part i).get source) store))

theorem Tracked.chronicles (h : Tracked crew act source store c) :
    ∀ (j : Nat) (w : Worker φ ψ), c.pool.workers[j]? = some w →
      ∃ journal deeds, Chronicle crew.settings w journal deeds := by
  intro j w hWorker
  obtain ⟨turns, hShows⟩ := h j
  obtain ⟨deeds, hChronicle, -⟩ := Worker.Course.run_from_start (I := fun _ _ _ => True)
    (fun _ _ => trivial) (fun _ _ => trivial) trivial turns
  have hStands := hShows.worker
  rw [hWorker] at hStands
  obtain rfl | ⟨-, hired, rfl⟩ := hStands.of_some
  · exact ⟨_, deeds, hChronicle⟩
  · exact ⟨[], [], Worker.chronicle_idle crew.settings hired⟩

theorem Tracked.turn (hSeparate : crew.Separate) (h : Tracked crew act source store c)
    (t : Turn α τ) : Tracked crew act source store (c.turn crew act t) := by
  intro i
  obtain ⟨turns, hShows⟩ := h i
  obtain ⟨more, hMore⟩ := hShows.turn hSeparate h.chronicles act t
  exact ⟨turns ++ more, by rwa [Worker.Course.run_append]⟩

theorem Tracked.run (hSeparate : crew.Separate) (h : Tracked crew act source store c)
    (turns : List (Turn α τ)) : Tracked crew act source store (c.run crew act turns) := by
  induction turns generalizing c with
  | nil => exact h
  | cons t turns ih => exact ih (h.turn hSeparate t)

/-- In every course of a pool each worker goes through a course of its own. -/
theorem tracked_run (hSeparate : crew.Separate) (act : α → ρ → ρ) (source : σ) (store : τ)
    (turns : List (Turn α τ)) :
    Tracked crew act source store (Course.run crew act turns (.start source store)) :=
  Tracked.run hSeparate (fun _ => ⟨[], .inr ⟨rfl, .inl rfl⟩, rfl, rfl, rfl, rfl, rfl⟩) turns

end Tracking

end EventIngest.Pool
