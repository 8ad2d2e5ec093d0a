import EventIngest.Proofs.Guarded
import EventIngest.Proofs.Pending
import EventIngest.Proofs.Strides
/-!
# Modest and prompt sources

A modest source returns no more deliveries than a fetch asks for, and a prompt one waits no longer
than it may. Both are promises about a fetch and all its resumptions, so they speak of the calls
that wait: a call bounds what it will still bring and how long it will still wait. The queue and the
log in memory are modest and prompt. Before a modest source the buffer of a worker never overflows,
and a fetch that fills it ends with the delivery that does.
-/
namespace EventIngest

variable {σ φ τ ψ : Type}

namespace Fetch

/-- The fetch returns at most `max` deliveries, or a call that will bring no more. -/
def AtMost (most : φ → Nat) (max : Nat) : Fetch φ → Prop
  | .answered (.ok deliveries) => deliveries.length ≤ max
  | .waiting _ call => most call ≤ max
  | .answered (.error _) | .stalled | .crashed => True

/-- The fetch waits for at most `wait`, however often it is resumed. -/
def EndsIn (rest : φ → Duration) (wait : Duration) : Fetch φ → Prop
  | .waiting time call => time + rest call ≤ wait
  | .answered _ | .stalled | .crashed => True

end Fetch

namespace Source

structure Modest (intake : Source σ φ) (most : φ → Nat) : Prop where
  fetch : ∀ s max wait, (intake.fetch s max wait).1.AtMost most max
  resume : ∀ s call, (intake.resume s call).1.AtMost most (most call)

structure Prompt (intake : Source σ φ) (rest : φ → Duration) : Prop where
  fetch : ∀ s max wait, (intake.fetch s max wait).1.EndsIn rest wait
  resume : ∀ s call, (intake.resume s call).1.EndsIn rest (rest call)

section Behind

variable {γ : Type} (guard : Guard γ) {intake : Source σ φ}

theorem Modest.guarded {most : φ → Nat} (h : intake.Modest most) :
    (intake.guarded guard).Modest most := by
  constructor
  · intro s max wait
    obtain ⟨hFetch, -⟩ | ⟨obstacle, hFetch, -⟩ := guard.fetch_cases intake s max wait
    · rw [hFetch]
      exact h.fetch s.2 max wait
    · rw [hFetch]
      cases obstacle <;> trivial
  · exact fun s call => h.resume s.2 call

theorem Prompt.guarded {rest : φ → Duration} (h : intake.Prompt rest) :
    (intake.guarded guard).Prompt rest := by
  constructor
  · intro s max wait
    obtain ⟨hFetch, -⟩ | ⟨obstacle, hFetch, -⟩ := guard.fetch_cases intake s max wait
    · rw [hFetch]
      exact h.fetch s.2 max wait
    · rw [hFetch]
      cases obstacle <;> trivial
  · exact fun s call => h.resume s.2 call

end Behind

end Source

theorem Duration.waited_le (d : Duration) : d.waited ≤ d := Nat.min_le_left _ _

/-- How many deliveries a waiting fetch brings at most. -/
def Waiting.most (call : Waiting) : Nat := Max.max call.max call.collected.length

namespace Queue

theorem take_atMost (q : Queue) (max : Nat) :
    ∀ deliveries, (q.take max).1 = .ok deliveries → deliveries.length ≤ max := by
  intro deliveries hTake
  simp only [take] at hTake
  split at hTake
  · cases hTake
  · cases hTake
    rw [List.length_map]
    exact List.length_take_le _ _

theorem modest : source.Modest Waiting.most := by
  constructor
  · intro q max wait
    simp only [source]
    split
    · exact Nat.max_le.mpr ⟨Nat.le_refl max, Nat.zero_le max⟩
    · rename_i result q' hOther hTake
      cases result with
      | ok deliveries => exact take_atMost q max deliveries (congrArg Prod.fst hTake)
      | error e => trivial
  · intro q call
    simp only [source]
    rcases hTake : q.take call.max with ⟨_ | deliveries, q'⟩
    · trivial
    · exact Nat.le_trans (take_atMost q call.max deliveries (congrArg Prod.fst hTake))
        (Nat.le_max_left _ _)

theorem prompt : source.Prompt fun _ => 0 := by
  constructor
  · intro q max wait
    simp only [source]
    split
    · exact wait.waited_le
    · trivial
  · exact fun _ _ => trivial

end Queue

namespace Log

theorem length_read (n : Nat) (l : Log) : (read n l).1.length ≤ n := by
  induction n generalizing l with
  | zero => exact Nat.le_refl 0
  | succ n ih =>
    rw [read]
    split
    · exact Nat.zero_le _
    · exact Nat.succ_le_succ (ih _)

theorem modest : source.Modest Waiting.most := by
  constructor
  · intro l max wait
    have hLength : ((l.ledger.redeliver max).1 ++
        (read (max - (l.ledger.redeliver max).1.length)
          { l with ledger := (l.ledger.redeliver max).2 }).1).length ≤ max := by
      have hAgain : (l.ledger.redeliver max).1.length ≤ max :=
        Nat.le_trans (Nat.le_of_eq (Ledger.length_handOutQueued _ _)) (Nat.min_le_left _ _)
      have hFresh := length_read (max - (l.ledger.redeliver max).1.length)
        { l with ledger := (l.ledger.redeliver max).2 }
      rw [List.length_append]
      omega
    simp only [source]
    split
    · exact Nat.max_le.mpr ⟨Nat.le_refl max, hLength⟩
    · exact hLength
  · intro l call
    have hFresh := length_read (call.max - call.collected.length) l
    simp only [source, Fetch.AtMost, Waiting.most, List.length_append]
    omega

theorem prompt : source.Prompt fun _ => 0 := by
  constructor
  · intro l max wait
    simp only [source]
    split
    · exact wait.waited_le
    · trivial
  · exact fun _ _ => trivial

end Log

/-- The buffer is empty or can take one more without being full. -/
def Buffer.IsFree (size : Nat) (b : Buffer) : Prop := b.batch = [] ∨ b.batch.length < size

namespace Buffer.IsFree

variable {size : Nat} {b : Buffer}

theorem lt_of_ne (h : b.IsFree size) (hBatch : b.batch ≠ []) : b.batch.length < size :=
  h.resolve_left hBatch

theorem lt_of_pos (h : b.IsFree size) (hSize : 0 < size) : b.batch.length < size := by
  obtain hEmpty | hLess := h
  · rwa [hEmpty]
  · exact hLess

theorem le (h : b.IsFree size) : b.batch.length ≤ size := by
  obtain hEmpty | hLess := h
  · rw [hEmpty]
    exact Nat.zero_le size
  · exact Nat.le_of_lt hLess

end Buffer.IsFree

namespace Worker

/-- What a worker has in hand fits into a batch of this size. -/
def Snug (most : φ → Nat) (size : Nat) (w : Worker φ ψ) : Prop :=
  w.buffer.capacity = size ∧
  match w.phase with
  | .fetching _ call => w.buffer.IsFree size ∧ w.buffer.batch.length + most call ≤ size
  | .absorbing rest _ => w.buffer.IsFree size ∧ w.buffer.batch.length + rest.length ≤ size
  | .writing flush _ =>
    w.buffer.batch = [] ∧ flush.next.coming = [] ∧ 0 < flush.batch.length ∧
      flush.batch.length ≤ size
  | .starting | .stopping | .stopped => w.buffer.batch = []
  | .polling | .pausing _ | .stalled | .draining | .crashed => w.buffer.IsFree size

theorem snug_idle (most : φ → Nat) (settings : WorkerSettings) (now : Instant) :
    Snug most settings.batchSize (idle settings now : Worker φ ψ) := ⟨rfl, rfl⟩

section Stride

variable {setup : Setup σ τ φ ψ} {now : Instant} {cancelled : Bool} {most : φ → Nat} {size : Nat}

/-- The delivery that fills the buffer is the last one. -/
theorem Snug.rest_nil {w : Worker φ ψ} (h : w.Snug most size) ⦃d : Delivery⦄
    ⦃rest : List Delivery⦄ ⦃rejected : Bool⦄ (hPhase : w.phase = .absorbing (d :: rest) rejected)
    (hFull : w.buffer.capacity ≤ w.buffer.batch.length + 1) : rest = [] := by
  obtain ⟨hCapacity, hFits⟩ := h
  rw [hPhase] at hFits
  have hMost : w.buffer.batch.length + (rest.length + 1) ≤ size := hFits.2
  rw [hCapacity] at hFull
  apply List.length_eq_zero_iff.mp
  omega

theorem fetch_phase_snug {f : Fetch φ} {max : Nat} {b : Buffer} (hMost : f.AtMost most max)
    (hCapacity : b.capacity = size) (hFree : b.IsFree size)
    (hMax : b.batch.length + max ≤ size) : Snug most size ⟨f.phase (ψ := ψ) now, b⟩ := by
  refine ⟨hCapacity, ?_⟩
  match f with
  | .answered (.ok _) | .waiting .. => exact ⟨hFree, Nat.le_trans (Nat.add_le_add_left hMost _) hMax⟩
  | .answered (.error _) | .stalled | .crashed => exact hFree

theorem Stride.snug {w w' : Worker φ ψ} {journal : List Happening}
    (h : Stride setup now cancelled w w' journal) (hModest : setup.intake.Modest most)
    (hSnug : w.Snug most size) : w'.Snug most size := by
  have hLast := hSnug.rest_nil
  obtain ⟨hCapacity, hFits⟩ := hSnug
  cases h with
  | start b => exact ⟨hCapacity, .inl hFits⟩
  | @leave p b hHeedful hLeaves =>
    refine ⟨hCapacity, ?_⟩
    cases p with
    | polling | pausing _ | stalled => exact hFits
    | fetching due call => exact hFits.1
    | _ => cases hHeedful
  | expire hStays hDue hEmpty => exact ⟨hCapacity, .inl rfl⟩
  | @ask s b hStays hDue wait hWait f hFetch =>
    have hFree : b.IsFree size := hFits
    have hRoom : b.room = size - b.batch.length := by rw [Buffer.room, hCapacity]
    refine fetch_phase_snug (hFetch ▸ hModest.fetch s b.room wait) hCapacity hFree ?_
    rw [hRoom]
    exact Nat.le_of_eq (Nat.add_sub_cancel' hFree.le)
  | @resume s b due call hStays f hFetch =>
    exact fetch_phase_snug (hFetch ▸ hModest.resume s call) hCapacity hFits.1 hFits.2
  | rest b due hStays => exact ⟨hCapacity, hFits⟩
  | @take b d p rest rejected hParcel hRoom =>
    have hFull : b.capacity = size := hCapacity
    have hLength : b.batch.length + (rest.length + 1) ≤ size := hFits.2
    have hPushed : (b.push p).batch.length = b.batch.length + 1 := List.length_append
    refine ⟨hCapacity, .inr ?_, ?_⟩
    · change (b.push p).batch.length < size
      omega
    · change (b.push p).batch.length + rest.length ≤ size
      omega
  | @fill b d p rest rejected hParcel hFull due call =>
    have hLength : b.batch.length + (rest.length + 1) ≤ size := hFits.2
    have hPushed : (b.batch ++ [p]).length = b.batch.length + 1 := List.length_append
    refine ⟨hCapacity, rfl, hLast rfl hFull, ?_, ?_⟩
    · change 0 < (b.batch ++ [p]).length
      omega
    · change (b.batch ++ [p]).length ≤ size
      omega
  | refuse b rest rejected hRefusal hPlain =>
    exact ⟨hCapacity, hFits.1, Nat.le_trans (Nat.add_le_add_left (Nat.le_succ _) _) hFits.2⟩
  | finish b rejected hPlain => exact ⟨hCapacity, hFits.1⟩
  | flush hStays hDue hBatch due call =>
    exact ⟨hCapacity, rfl, rfl, List.length_pos_iff.mpr hBatch, Buffer.IsFree.le hFits⟩
  | lastFlush hBatch due call =>
    exact ⟨hCapacity, rfl, rfl, List.length_pos_iff.mpr hBatch, Buffer.IsFree.le hFits⟩
  | retry b flush hRetries hJournal => exact ⟨hCapacity, hFits⟩
  | settle b flush w hPlain =>
    obtain ⟨hEmpty, hComing, hPos, hLength⟩ := hFits
    have hBatch : (b.restartTimer now).batch = [] := hEmpty
    refine ⟨hCapacity, ?_⟩
    cases hNext : flush.next with
    | poll => exact .inl hBatch
    | stop => exact hBatch
    | absorb rest rejected =>
      have hRest : rest = [] := by simpa [hNext] using hComing
      refine ⟨.inl hBatch, ?_⟩
      rw [hRest, hBatch]
      exact Nat.zero_le size
  | empty hEmpty => exact ⟨hCapacity, hEmpty⟩
  | stop b => exact ⟨hCapacity, hFits⟩
  | ended hEnded => exact ⟨hCapacity, hFits⟩

end Stride

end Worker

end EventIngest
