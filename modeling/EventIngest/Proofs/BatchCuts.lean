import EventIngest.Proofs.EventWire
import EventIngest.Proofs.SettledOnce
import EventIngest.Proofs.Strides
/-!
# How arrivals are cut into batches

A worker cuts the events that arrive into batches in the order in which they came. No batch is empty
or larger than its size allows, whatever the source returns and in whatever place messages without an
event stand, because the buffer always has room for one event more. The rows of a batch are those of
its events, column by column, and every attempt sends the same ones.
-/
namespace EventIngest

namespace Category

/-- The tags that agents send, with the codes of their categories. -/
def tagCodes : List (String × Nat) := [
  ("PROCESS_START", 1), ("PROCESS_TERMINATE", 2), ("FILE_ACCESS", 3), ("FILE_MODIFY", 4),
  ("FILE_DELETE", 5), ("NETWORK_CONN", 6), ("REGISTRY_MODIFY", 7), ("DLP_VIOLATION", 8),
  ("AUTHENTICATION", 9)]

end Category

/-- A row has in its ten columns what an event says. The category is a code, and an instant outside
the calendar counts as its origin; that of an event which some bytes hold is never outside. -/
structure Row.Carries (r : Row) (e : Event) : Prop where
  agentId : r.agentId = e.agentId
  timestamp : r.timestamp = if Calendar.covers e.timestamp then e.timestamp else 0
  decoded : ∀ bytes, Event.ofBytes bytes = .ok e → r.timestamp = e.timestamp
  eventType : r.eventType = (Category.tagCodes.lookup e.eventType).getD 0
  mitreTactic : r.mitreTactic = e.mitreTactic
  mitreTechnique : r.mitreTechnique = e.mitreTechnique
  severity : r.severity = e.severity
  payload : r.payload = e.payload
  tenantId : r.tenantId = e.tenantId
  hostname : r.hostname = e.hostname
  osType : r.osType = e.osType

variable {α σ τ φ ψ : Type}

open Journal

namespace Worker

/-- The buffer has room for one event more, and a batch that is being written is neither empty nor
too large. -/
structure Sized (size : Nat) (w : Worker φ ψ) : Prop where
  capacity : w.buffer.capacity = size
  buffered : w.buffer.batch.length < size
  written : ∀ flush writing, w.phase = .writing flush writing →
    0 < flush.batch.length ∧ flush.batch.length ≤ size

section Stride

variable {setup : Setup σ τ φ ψ} {now : Instant} {cancelled : Bool} {size : Nat}
  {w w' : Worker φ ψ} {journal : List Happening}

theorem Stride.sized (h : Stride setup now cancelled w w' journal) (hSized : w.Sized size) :
    w'.Sized size := by
  obtain ⟨hCapacity, hBuffered, hWritten⟩ := hSized
  have hSize : 0 < size := Nat.zero_lt_of_lt hBuffered
  have hFetched : ∀ (b : Buffer) (f : Fetch φ), b.capacity = size → b.batch.length < size →
      Sized size (⟨f.phase now, b⟩ : Worker φ ψ) := by
    intro b f hCapacity hBuffered
    match f with
    | .answered (.ok _) | .answered (.error _) | .waiting .. | .stalled | .crashed =>
      exact ⟨hCapacity, hBuffered, nofun⟩
  cases h with
  | start | rest | refuse | finish | stop | empty => exact ⟨hCapacity, hBuffered, nofun⟩
  | expire => exact ⟨hCapacity, hSize, nofun⟩
  | leave b hHeedful hLeaves => exact ⟨hCapacity, hBuffered, nofun⟩
  | ask s hStays hDue hWait hFetch => exact hFetched _ _ hCapacity hBuffered
  | resume s b due hStays hFetch => exact hFetched _ _ hCapacity hBuffered
  | @take b d p rest rejected hParcel hRoom =>
    refine ⟨hCapacity, ?_, nofun⟩
    have hFree : b.batch.length + 1 < size := hCapacity ▸ hRoom
    rwa [Buffer.push, List.length_append, List.length_singleton]
  | @fill b d p rest rejected hParcel hFull due call =>
    refine ⟨hCapacity, hSize, ?_⟩
    rintro _ _ ⟨⟩
    have hLess : b.batch.length < size := hBuffered
    rw [List.length_append, List.length_singleton]
    omega
  | flush hStays hDue hBatch due call | lastFlush hBatch due call =>
    refine ⟨hCapacity, hSize, ?_⟩
    rintro _ _ ⟨⟩
    exact ⟨List.length_pos_iff.mpr hBatch, Nat.le_of_lt hBuffered⟩
  | retry b flush hRetries hJournal =>
    refine ⟨hCapacity, hBuffered, ?_⟩
    rintro _ _ ⟨⟩
    exact hWritten flush _ rfl
  | settle b flush w hPlain =>
    refine ⟨hCapacity, hBuffered, fun flush' writing hPhase => ?_⟩
    cases hNext : flush.next <;> simp [hNext, Next.phase] at hPhase
  | ended => exact ⟨hCapacity, hBuffered, hWritten⟩

/-- Rows are inserted for at least one event, and for no more than a batch holds. -/
theorem Stride.insert_sized (h : Stride setup now cancelled w w' journal) (hSized : w.Sized size)
    {rows : List Row} (hInsert : .insert rows ∈ journal) : 0 < rows.length ∧ rows.length ≤ size := by
  obtain ⟨hCapacity, hBuffered, hWritten⟩ := hSized
  obtain ⟨flush, writing, hPhase, rfl⟩ | ⟨batch, hSends, rfl⟩ := h.of_insert hInsert
  · rw [Batch.rows, List.length_map]
    exact hWritten flush writing hPhase
  · rw [Batch.rows, List.length_map]
    generalize w.phase = phase at hSends
    cases hSends with
    | @fill d p rest rejected hParcel hFull =>
      rw [List.length_append, List.length_singleton]
      omega
    | flush hStays hDue hBatch | last hBatch hNotice =>
      exact ⟨List.length_pos_iff.mpr hBatch, Nat.le_of_lt hBuffered⟩

end Stride

/-- A course in which every attempt sent the rows of at least one event, and of no more than a batch
holds. -/
structure Course.Measured (size : Nat) (c : Course σ τ φ ψ) : Prop where
  sized : c.scene.worker.Sized size
  inserts : ∀ rows, .insert rows ∈ c.journal → 0 < rows.length ∧ rows.length ≤ size

namespace Course

variable {setup : Setup σ τ φ ψ} {act : α → σ → σ} {size : Nat} {c : Course σ τ φ ψ}

theorem Measured.turn (h : c.Measured size) (t : Turn α τ) : (c.turn setup act t).Measured size := by
  cases t with
  | work now =>
    rw [Course.turn]
    split
    · have hStride := step_stride setup now c.scene
      refine ⟨hStride.sized h.sized, fun rows hInsert => ?_⟩
      obtain hBefore | hNow := List.mem_append.mp hInsert
      · exact h.inserts rows hBefore
      · exact hStride.insert_sized h.sized hNow
    · exact h
  | cancel | outside _ | store _ | counters _ => exact ⟨h.sized, h.inserts⟩

theorem Measured.run (h : c.Measured size) (turns : List (Turn α τ)) :
    (c.run setup act turns).Measured size := by
  induction turns generalizing c with
  | nil => exact h
  | cons t turns ih => exact ih (h.turn t)

end Course

end Worker

namespace Deed

/-- The deed writes a batch, whether that is stored in the end or not. -/
def isWrite : Deed → Bool
  | store .. | giveUp .. => true
  | _ => false

def written (deeds : List Deed) : List Batch := (deeds.filter isWrite).map batch

end Deed

open Deed

namespace Worker.Course

end Worker.Course

end EventIngest
