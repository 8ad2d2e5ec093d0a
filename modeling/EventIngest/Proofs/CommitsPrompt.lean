import EventIngest.Proofs.AtLeastOnce
import EventIngest.Proofs.Tallies
/-!
# Commits do not lag

A worker commits after it has settled a batch and after a fetch in which it rejected messages. So
between its works what is committed is all that can be: the lowest pending offset, or the position
if nothing is pending. Records are appended and the log is restarted at any time, also between two
calls for one batch. A restart between the works reads again from that offset on, and never from an
earlier one.
-/
namespace EventIngest

def Happening.isFailedCommit : Happening → Bool
  | .commit (.error _) => true
  | _ => false

/-- A source that changes by itself before each call. -/
def Source.after {σ φ : Type} (change : σ → σ) (source : Source σ φ) : Source σ φ where
  fetch s max wait := source.fetch (change s) max wait
  resume s call := source.resume (change s) call
  ack s h := source.ack (change s) h
  nak s h := source.nak (change s) h
  commit s := source.commit (change s)
  deadLetter s h raw reason := source.deadLetter (change s) h raw reason

namespace Source.Keeps

variable {γ σ φ : Type} {source : Source σ φ} {P : σ → Prop}

theorem after (h : source.Keeps P) {change : σ → σ} (hChange : ∀ s, P s → P (change s)) :
    (source.after change).Keeps P :=
  ⟨fun _ max wait hs => h.fetch _ max wait (hChange _ hs),
    fun _ call hs => h.resume _ call (hChange _ hs),
    fun _ handle hs => h.ack _ handle (hChange _ hs),
    fun _ handle hs => h.nak _ handle (hChange _ hs),
    fun _ hs => h.commit _ (hChange _ hs),
    fun _ handle raw reason hs => h.deadLetter _ handle raw reason (hChange _ hs)⟩

/-- A call that the guard lets through is a call to the source, and any other one changes nothing. -/
theorem guarded (h : source.Keeps P) (guard : Guard γ) :
    (source.guarded guard).Keeps fun s => P s.2 := by
  have hPass : ∀ (verdict : Option SourceError × γ) (call : Answer × σ) (s : σ), P s → P call.2 →
      P (Guard.pass verdict call s).2.2 := by
    intro verdict call s hs hCall
    obtain ⟨-, -, hReaches⟩ | ⟨e, -, -, hFails⟩ := Guard.pass_cases verdict call s
    · rwa [hReaches]
    · rwa [hFails]
  refine ⟨?_, fun s call hs => h.resume s.2 call hs,
    fun s handle hs => hPass _ _ _ hs (h.ack s.2 handle hs),
    fun s handle hs => hPass _ _ _ hs (h.nak s.2 handle hs),
    fun s hs => hPass _ _ _ hs (h.commit s.2 hs),
    fun s handle raw reason hs => hPass _ _ _ hs (h.deadLetter s.2 handle raw reason hs)⟩
  intro s max wait hs
  obtain ⟨-, hReaches⟩ | ⟨obstacle, -, hFails⟩ := guard.fetch_cases source s max wait
  · rw [hReaches]
    exact h.fetch s.2 max wait hs
  · rwa [hFails]

end Source.Keeps

namespace Log

open Ledger

variable {γ : Type}

/-- What others do to a log before a call. -/
def meddle (plan : γ → List Act × γ) (s : γ × Log) : γ × Log :=
  ((plan s.1).2, (plan s.1).1.foldl act s.2)

/-- A log to which others do what they plan before each call, also when the guard does not let the
call through. -/
def amid (plan : γ → List Act × γ) (guard : Guard γ) : Source (γ × Log) Waiting :=
  (source.guarded guard).after (meddle plan)

/-- The lowest offset that is pending, or the position if nothing is pending. -/
def IsDue (l : Log) (o : Nat) : Prop :=
  ((o : Int) ∈ l.pendingOffsets ∧ ∀ p ∈ l.pendingOffsets, (o : Int) ≤ p) ∨
    (l.pendingOffsets = [] ∧ o = l.position)

theorem Sound.isDue_frontier {l : Log} (h : l.Sound) : l.IsDue l.frontier := by
  cases hPending : l.ledger.pending with
  | nil => exact .inr ⟨by rw [pendingOffsets, hPending]; rfl, by rw [frontier, hPending]; rfl⟩
  | cons e es =>
    refine .inl ⟨?_, h.frontier_le.2⟩
    obtain ⟨-, hCommitted, -⟩ := h.entries e (hPending ▸ List.mem_cons_self)
    have hFirst : (l.frontier : Int) = e.offset := by
      simp only [frontier, hPending, List.head?_cons, Option.map_some, Option.getD_some]
      omega
    rw [hFirst, pendingOffsets, hPending]
    exact List.mem_cons_self

structure Prompt (l : Log) : Prop where
  sound : l.Sound
  committed : l.committed = l.frontier

structure SoundFrom (n : Nat) (l : Log) : Prop where
  sound : l.Sound
  committed : n ≤ l.committed

section Acts

variable {l : Log} {n : Nat}

theorem Sound.act (h : l.Sound) (a : Act) : (l.act a).Sound := by
  cases a with
  | append record => exact h.append record
  | restart => exact h.restart

theorem Prompt.act (h : l.Prompt) (a : Act) : (l.act a).Prompt := by
  cases a with
  | append record => exact ⟨h.sound.append record, h.committed⟩
  | restart => exact ⟨h.sound.restart, rfl⟩

theorem SoundFrom.act (h : l.SoundFrom n) (a : Act) : (l.act a).SoundFrom n := by
  cases a with
  | append record => exact ⟨h.sound.append record, h.committed⟩
  | restart => exact ⟨h.sound.restart, h.committed⟩

/-- What every act of others keeps, all that they do at once keeps. -/
theorem meddle_keeps {P : Log → Prop} (hAct : ∀ {l}, P l → ∀ a, P (l.act a))
    (plan : γ → List Act × γ) {s : γ × Log} (h : P s.2) : P (meddle plan s).2 := by
  have hAll : ∀ (acts : List Act) (l : Log), P l → P (acts.foldl Log.act l) := by
    intro acts
    induction acts with
    | nil => exact fun _ hl => hl
    | cons a acts ih => exact fun l hl => ih _ (hAct hl a)
  exact hAll _ _ h

end Acts

namespace HandsOut

variable {l l' : Log} {ds : List Delivery} {n : Nat}

theorem prompt (h : l.HandsOut ds l') (hl : l.Prompt) : l'.Prompt :=
  ⟨h.sound, h.committed.trans (hl.committed.trans h.frontier.symm)⟩

theorem soundFrom (h : l.HandsOut ds l') (hl : l.SoundFrom n) : l'.SoundFrom n :=
  ⟨h.sound, h.committed ▸ hl.committed⟩

/-- Nothing is handed out from before the committed offset. -/
theorem le_offset (h : l.HandsOut ds l') (hl : l.SoundFrom n) :
    ∀ d ∈ ds, (n : Int) ≤ d.handle.offset := by
  intro d hd
  have hCommitted := hl.committed
  obtain hQueued | hFresh := h.origin _ (List.mem_map_of_mem hd)
  · obtain ⟨e, he, -, hOffset⟩ := mem_queuedOffsets.mp hQueued
    obtain ⟨-, hLe, -⟩ := hl.sound.entries e he
    omega
  · have hPosition := hl.sound.committed
    omega

end HandsOut

theorem keeps_soundFrom (n : Nat) : source.Keeps (SoundFrom n) where
  fetch _ max wait h := (HandsOut.fetch h.sound max wait).soundFrom h
  resume _ call h := by
    obtain ⟨fresh, -, hOut⟩ := HandsOut.resume h.sound call
    exact hOut.soundFrom h
  ack l handle h := by
    rw [ack_eq]
    exact ⟨h.sound.settle _ _, h.committed⟩
  nak l handle h := by
    rw [nak_eq]
    exact ⟨h.sound.settle _ _, h.committed⟩
  commit l h := by
    obtain ⟨hSound, hCommitted, -⟩ := h.sound.commit
    refine ⟨hSound, ?_⟩
    rw [hCommitted]
    exact Nat.le_trans h.committed h.sound.committed_le_frontier
  deadLetter _ _ _ _ h := ⟨h.sound.aside _, h.committed⟩

section Amid

variable (plan : γ → List Act × γ) (guard : Guard γ)

theorem amid_keeps_soundFrom (n : Nat) : (amid plan guard).Keeps fun s => SoundFrom n s.2 :=
  ((keeps_soundFrom n).guarded guard).after fun _ => meddle_keeps SoundFrom.act plan

theorem amid_fetch_prompt {s : γ × Log} (h : s.2.Prompt) (max : Nat) (wait : Duration) :
    ((amid plan guard).fetch s max wait).2.2.Prompt := by
  have hBefore := meddle_keeps Prompt.act plan h
  obtain ⟨-, hReaches⟩ | ⟨obstacle, -, hFails⟩ :=
    guard.fetch_cases source (meddle plan s) max wait
  · exact hReaches ▸ (HandsOut.fetch hBefore.sound max wait).prompt hBefore
  · exact hFails ▸ hBefore

theorem amid_resume_prompt {s : γ × Log} (h : s.2.Prompt) (call : Waiting) :
    ((amid plan guard).resume s call).2.2.Prompt := by
  have hBefore := meddle_keeps Prompt.act plan h
  obtain ⟨fresh, -, hOut⟩ := HandsOut.resume hBefore.sound call
  exact hOut.prompt hBefore

/-- A commit that does not fail leaves nothing to commit. -/
theorem amid_commit_prompt {s : γ × Log} (h : s.2.Sound)
    (hOk : ∀ e, ((amid plan guard).commit s).1 ≠ .error e) :
    ((amid plan guard).commit s).2.2.Prompt := by
  have hBefore := meddle_keeps Sound.act plan h
  obtain ⟨-, hReaches⟩ | ⟨e, hFails, -⟩ := guarded_commit guard (meddle plan s)
  · obtain ⟨hSound, hCommitted, -, hPosition, -, hPending⟩ := hBefore.commit
    refine hReaches ▸ ⟨hSound, hCommitted.trans ?_⟩
    rw [frontier, frontier, hPending, hPosition]
  · exact absurd hFails (hOk e)

variable {plan guard} {s : γ × Log} {n : Nat}

theorem amid_fetch_le (h : s.2.SoundFrom n) (max : Nat) (wait : Duration) :
    ∀ d ∈ ((amid plan guard).fetch s max wait).1.deliveries, (n : Int) ≤ d.handle.offset := by
  have hBefore := meddle_keeps SoundFrom.act plan h
  obtain ⟨hReaches, -⟩ | ⟨obstacle, hFails, -⟩ :=
    guard.fetch_cases source (meddle plan s) max wait
  · exact hReaches ▸ (HandsOut.fetch hBefore.sound max wait).le_offset hBefore
  · rw [amid, Source.after, hFails]
    cases obstacle <;> exact List.forall_mem_nil _

theorem amid_resume_le (h : s.2.SoundFrom n) {call : Waiting}
    (hCall : ∀ d ∈ call.collected, (n : Int) ≤ d.handle.offset) :
    ∀ d ∈ ((amid plan guard).resume s call).1.deliveries, (n : Int) ≤ d.handle.offset := by
  have hBefore := meddle_keeps SoundFrom.act plan h
  obtain ⟨fresh, hDeliveries, hOut⟩ := HandsOut.resume hBefore.sound call
  intro d hd
  have hBrought : d ∈ call.collected ++ fresh := hDeliveries ▸ hd
  exact (List.mem_append.mp hBrought).elim (hCall d) (hOut.le_offset hBefore d)

end Amid

/-- The log is sound, and nothing is left to commit unless the worker owes a commit or one failed. -/
structure Current (c : Custody Waiting) (l : Log) (deeds : List Deed) : Prop where
  sound : l.Sound
  prompt : (∀ e, .commit (.error e) ∉ deeds.flatMap Deed.calls) → c.owing = false → l.Prompt

namespace Current

variable {c c' : Custody Waiting} {l : Log} {deeds new : List Deed}

theorem act (h : Current c l deeds) (a : Act) : Current c (l.act a) deeds :=
  ⟨h.sound.act a, fun hNone hOwing => (h.prompt hNone hOwing).act a⟩

theorem move {plan : γ → List Act × γ} {guard : Guard γ} {settings : WorkerSettings}
    {s s' : γ × Log} (h : Current c s.2 deeds)
    (hMove : Custody.Move (amid plan guard) settings c s new c' s') :
    Current c' s'.2 (deeds ++ new) := by
  have hSound : s'.2.Sound :=
    (hMove.keeps (amid_keeps_soundFrom plan guard 0) ⟨h.sound, Nat.zero_le _⟩).sound
  refine ⟨hSound, fun hNone hOwing => ?_⟩
  have hBefore : c.owing = false → s.2.Prompt := by
    refine h.prompt fun e he => hNone e ?_
    rw [List.flatMap_append]
    exact List.mem_append_left _ he
  have hAnswers : ∀ d ∈ new, ∀ e, .commit (.error e) ∉ d.calls := by
    intro d hd e he
    exact hNone e (List.mem_flatMap.mpr ⟨d, List.mem_append_right _ hd, he⟩)
  -- What a move settles is committed at its end, or the worker owes a commit for it.
  have hCommit : ∀ {s : γ × Log} {answer : Answer}, s.2.Sound →
      answer = ((amid plan guard).commit s).1 → (∀ e, answer ≠ .error e) →
      ((amid plan guard).commit s).2.2.Prompt := by
    rintro s answer hSettled rfl hOk
    exact amid_commit_prompt plan guard hSettled hOk
  have hEach : ∀ {call : γ × Log → Handle → Answer × γ × Log},
      (∀ s h, SoundFrom 0 s.2 → SoundFrom 0 (call s h).2.2) → ∀ batch,
      (Source.each call batch s).2.2.Sound := fun hCall batch =>
    (Source.each_keeps (P := fun s : γ × Log => SoundFrom 0 s.2) hCall batch
      ⟨h.sound, Nat.zero_le _⟩).sound
  cases hMove with
  | rest | accept => exact hBefore hOwing
  | leave => exact hBefore hOwing
  | fetch s max wait _ _ _ _ _ hPaid => exact amid_fetch_prompt plan guard (hBefore hPaid) max wait
  | resume s call =>
    rw [Custody.fetched_owing] at hOwing
    exact amid_resume_prompt plan guard (hBefore hOwing) call
  | reject => cases hOwing
  | commit s =>
    refine hCommit h.sound rfl fun e he => hAnswers _ (List.mem_singleton_self _) e ?_
    rw [Deed.calls, he]
    exact List.mem_singleton_self _
  | store s hHeld =>
    refine hCommit (hEach (amid_keeps_soundFrom plan guard 0).ack _) rfl fun e he =>
      hAnswers _ (List.mem_singleton_self _) e ?_
    rw [Deed.calls, he]
    exact List.mem_append_right _ (List.mem_singleton_self _)
  | giveUp s hHeld =>
    refine hCommit (hEach (amid_keeps_soundFrom plan guard 0).nak _) rfl fun e he =>
      hAnswers _ (List.mem_singleton_self _) e ?_
    rw [Deed.calls, he]
    exact List.mem_append_right _ (List.mem_singleton_self _)

end Current

/-- Since some deeds were done, nothing was handed out from before an offset that is committed. -/
structure NoneBefore (n : Nat) (before : List Deed) (c : Custody Waiting) (l : Log)
    (deeds : List Deed) : Prop where
  log : l.SoundFrom n
  given : ∃ new, deeds = before ++ new ∧ ∀ d ∈ c.given new, (n : Int) ≤ d.handle.offset

namespace NoneBefore

variable {n : Nat} {before deeds new : List Deed} {c c' : Custody Waiting} {l : Log}

theorem act (h : NoneBefore n before c l deeds) (a : Act) : NoneBefore n before c (l.act a) deeds :=
  ⟨h.log.act a, h.given⟩

theorem move {plan : γ → List Act × γ} {guard : Guard γ} {settings : WorkerSettings}
    {s s' : γ × Log} (h : NoneBefore n before c s.2 deeds)
    (hMove : Custody.Move (amid plan guard) settings c s new c' s') :
    NoneBefore n before c' s'.2 (deeds ++ new) := by
  refine ⟨hMove.keeps (amid_keeps_soundFrom plan guard n) h.log, ?_⟩
  obtain ⟨since, rfl, hGiven⟩ := h.given
  have hArrived : ∀ d ∈ Deed.allArrivals since, (n : Int) ≤ d.handle.offset :=
    fun d hd => hGiven d (List.mem_append_left _ hd)
  have hCollected : ∀ d ∈ c.collected, (n : Int) ≤ d.handle.offset :=
    fun d hd => hGiven d (List.mem_append_right _ hd)
  refine ⟨since ++ new, List.append_assoc .., ?_⟩
  rw [Custody.given_append]
  refine fun d hd => (List.mem_append.mp hd).elim (hArrived d) fun hNew => ?_
  cases hMove with
  | rest | accept | reject | commit | store | giveUp => exact hCollected d hNew
  | leave => cases hNew
  | fetch s max wait =>
    exact amid_fetch_le h.log max wait d (Custody.given_fetched c _ ▸ hNew)
  | resume s call hCall =>
    rw [Custody.collected, hCall] at hCollected
    exact amid_resume_le h.log hCollected d (Custody.given_fetched c _ ▸ hNew)

end NoneBefore

/-- What is read of a log are the next records. -/
theorem read_offsets (max : Nat) (l : Log) :
    Delivery.offsets (read max l).1
      = (List.range' l.position (min max (l.records.size - l.position))).map Int.ofNat := by
  induction max generalizing l with
  | zero => simp [read]
  | succ max ih =>
    rw [read]
    split
    · rename_i hNone
      have hSize := Array.getElem?_eq_none_iff.mp hNone
      have hEmpty : min (max + 1) (l.records.size - l.position) = 0 := by omega
      rw [hEmpty]
      rfl
    · rename_i record hRecord
      have hLess := (Array.getElem?_eq_some_iff.mp hRecord).1
      have hCount : min (max + 1) (l.records.size - l.position)
          = min max (l.records.size - (l.position + 1)) + 1 := by omega
      rw [hCount, List.range'_succ, List.map_cons, Delivery.offsets_cons, ih]
      rfl

/-- A fetch from a log after a restart hands out the records from the committed offset on. -/
theorem fetch_restart_offsets (l : Log) (max : Nat) (wait : Duration) :
    Delivery.offsets (source.fetch l.restart max wait).1.deliveries
      = (List.range' l.committed (min max (l.records.size - l.committed))).map Int.ofNat := by
  have hDeliveries : (source.fetch l.restart max wait).1.deliveries = (read max l.restart).1 := by
    simp only [source]
    split <;> rfl
  rw [hDeliveries, read_offsets]
  rfl

section Courses

open Worker (Chronicle)
open Worker.Course Journal

variable {τ ψ : Type}

theorem owing_of_isBetween {φ : Type} {w : Worker φ ψ} (h : w.isBetween = true) :
    w.custody.owing = false := by
  obtain ⟨phase, buffer⟩ := w
  cases phase with
  | absorbing | writing => cases h
  | _ => rfl

theorem not_writing_of_isBetween {φ : Type} {w : Worker φ ψ} (h : w.isBetween = true) :
    ∀ flush writing, w.phase ≠ .writing flush writing := by
  intro flush writing hPhase
  simp [Worker.isBetween, hPhase] at h

theorem run_noneBefore (setup : Worker.Setup (γ × Log) τ Waiting ψ)
    {plan : γ → List Act × γ} {guard : Guard γ} (hIntake : setup.intake = amid plan guard) {n : Nat}
    {before : List Deed} {c : Worker.Course (γ × Log) τ Waiting ψ}
    (h : ∃ deeds, Chronicle setup.settings c.scene.worker c.journal deeds ∧
      NoneBefore n before c.scene.worker.custody c.scene.source.2 deeds)
    (turns : List (Worker.Turn Act τ)) :
    ∃ deeds, Chronicle setup.settings (run setup (behind act) turns c).scene.worker
        (run setup (behind act) turns c).journal deeds ∧
      NoneBefore n before (run setup (behind act) turns c).scene.worker.custody
        (run setup (behind act) turns c).scene.source.2 deeds := by
  induction turns generalizing c with
  | nil => exact h
  | cons t turns ih =>
    refine ih (turn_keeps (I := fun c (s : γ × Log) deeds => NoneBefore n before c s.2 deeds)
      ?_ ?_ h t)
    · exact fun hBefore hMove => hBefore.move (hIntake ▸ hMove)
    · exact fun a hBefore => hBefore.act a

/-- Whatever the store does and whichever settlements fail, in any run of a worker over a log in which
no commit fails, what is committed between the works of the worker is the lowest pending offset, or
the position if nothing is pending. Records are appended and the log is restarted at any time. A
restart between the works is followed by the records from that offset on, and by no earlier one in
any continuation of the run. -/
theorem commits_never_lag (settings : WorkerSettings) (plan : γ → List Act × γ) (guard : Guard γ)
    (store : Store τ ψ) (g : γ) (t : τ) (records : Array (List UInt8))
    (turns : List (Worker.Turn Act τ)) :
    let setup : Worker.Setup (γ × Log) τ Waiting ψ := ⟨settings, amid plan guard, store⟩
    let c := run setup (behind act) turns (start settings (g, { records }) t)
    let l := c.scene.source.2
    (∀ call ∈ c.journal, call.isFailedCommit = false) → c.scene.worker.isBetween = true →
      l.IsDue l.committed ∧
      (∀ max wait, Delivery.offsets (source.fetch l.restart max wait).1.deliveries
        = (List.range' l.committed (min max (l.records.size - l.committed))).map Int.ofNat) ∧
      (c.scene.worker.phase.call? = none → ∀ more : List (Worker.Turn Act τ),
        ∃ new, arrivals (run setup (behind act) (.outside .restart :: more) c).journal
            = arrivals c.journal ++ new ∧
          ∀ d ∈ new, (l.committed : Int) ≤ d.handle.offset) := by
  intro setup c l hNone hBetween
  obtain ⟨deeds, hChronicle, hCurrent⟩ :
      ∃ deeds, Chronicle setup.settings c.scene.worker c.journal deeds ∧
        Current c.scene.worker.custody l deeds :=
    run_from_start (I := fun c (s : γ × Log) deeds => Current c s.2 deeds)
      (fun h hMove => h.move hMove) (fun a h => h.act a)
      ⟨.start records, fun _ _ => ⟨.start records, rfl⟩⟩ turns
  have hPrompt : l.Prompt := by
    refine hCurrent.prompt (fun e he => ?_) (owing_of_isBetween hBetween)
    rw [← hChronicle.calls_eq (not_writing_of_isBetween hBetween)] at he
    cases hNone _ (mem_of_mem_calls he)
  refine ⟨?_, l.fetch_restart_offsets, fun hCall more => ?_⟩
  · rw [hPrompt.committed]
    exact hPrompt.sound.isDue_frontier
  · have hNothing : c.scene.worker.custody.collected = [] := by
      rw [Custody.collected, Worker.custody, hCall]
      rfl
    obtain ⟨later, hLater, hBefore⟩ := run_noneBefore setup rfl
      ⟨deeds, hChronicle, ⟨⟨hPrompt.sound, Nat.le_refl l.committed⟩, [],
        (List.append_nil deeds).symm, fun d hd => by
          rw [Custody.given, hNothing] at hd
          cases hd⟩⟩ (.outside .restart :: more)
    obtain ⟨new, rfl, hGiven⟩ := hBefore.given
    refine ⟨Deed.allArrivals new, ?_, fun d hd => hGiven d (List.mem_append_left _ hd)⟩
    rw [hLater.arrivals_eq, hChronicle.arrivals_eq, Deed.allArrivals_append]

/-- The log is restarted between the acknowledgements of a batch. -/
def restartOnce (n : Nat) : List Act × Nat := (if n = 2 then [.restart] else [], n + 1)

/-- After the restart one of the acknowledgements for the same records fails. -/
def failOnce : Guard Nat where
  fetch n := (none, n)
  ack n _ := (if n = 7 then some .closed else none, n)
  nak n _ := (none, n)
  commit n := (none, n)
  deadLetter n _ := (none, n)

def restarted : Worker.Setup (Nat × Log) PlannedStore Waiting (Option StoreError) :=
  ⟨{ batchSize := 2 }, amid restartOnce failOnce, PlannedStore.store⟩

def restartedCourse : Worker.Course (Nat × Log) PlannedStore Waiting (Option StoreError) :=
  run restarted (behind act) (List.replicate 11 (.work 0))
    (start restarted.settings (0, { records := #[[123, 125], [123, 125], [120]] }) {})

/-- The record whose acknowledgement failed is the first one to be read again. -/
theorem second_of_three_is_due :
    let l := restartedCourse.scene.source.2
    (∀ call ∈ restartedCourse.journal, call.isFailedCommit = false) ∧
      restartedCourse.scene.worker.isBetween = true ∧
      restartedCourse.scene.worker.phase.call? = none ∧
      l.committed = 1 ∧ l.position = 2 ∧ l.IsDue 1 ∧
      (∀ wait, Delivery.offsets (source.fetch l.restart 5 wait).1.deliveries = [1, 2]) ∧
      ∃ new, arrivals (run restarted (behind act) [.outside .restart, .work 0]
          restartedCourse).journal = arrivals restartedCourse.journal ++ new ∧
        ∀ d ∈ new, (1 : Int) ≤ d.handle.offset := by
  intro l
  have hNone : ∀ call ∈ restartedCourse.journal, call.isFailedCommit = false := by
    decide +kernel
  have hBetween : restartedCourse.scene.worker.isBetween = true := by decide +kernel
  have hCall : restartedCourse.scene.worker.phase.call? = none := by rfl
  have hCommitted : l.committed = 1 := by decide +kernel
  have hSize : l.records.size = 3 := by decide +kernel
  obtain ⟨hDue, hAgain, hLater⟩ := commits_never_lag { batchSize := 2 } restartOnce failOnce
    PlannedStore.store 0 {} #[[123, 125], [123, 125], [120]] (List.replicate 11 (.work 0)) hNone
    hBetween
  refine ⟨hNone, hBetween, hCall, hCommitted, by decide +kernel, hCommitted ▸ hDue, fun wait => ?_,
    ?_⟩
  · have hOffsets : Delivery.offsets (source.fetch l.restart 5 wait).1.deliveries
        = (List.range' l.committed (min 5 (l.records.size - l.committed))).map Int.ofNat :=
      hAgain 5 wait
    rw [hCommitted, hSize] at hOffsets
    exact hOffsets
  · have hNoneBefore : ∃ new, arrivals (run restarted (behind act) [.outside .restart, .work 0]
          restartedCourse).journal = arrivals restartedCourse.journal ++ new ∧
        ∀ d ∈ new, (l.committed : Int) ≤ d.handle.offset := hLater hCall [.work 0]
    rwa [hCommitted] at hNoneBefore

end Courses

end Log

end EventIngest
