import EventIngest.Proofs.Custody
import EventIngest.Store.Planned
import EventIngest.Writing
/-!
# Retried writes

A store that is asked again and again to insert the same rows answers with a sequence of attempts,
whatever it remembers from one to the next. The writing of a batch makes the attempts of this
sequence up to the first one that succeeds, or as many as its policy allows. After each failed
attempt but the last it asks for a pause of as many units as attempts were made; a pause of whole
milliseconds lasts that long, or as long as can be waited at once.
-/
namespace EventIngest

variable {τ ψ : Type}

/-- When an attempt to insert rows began and ended, and what the store answered. -/
structure Attempt where
  began : Instant
  ended : Instant
  answer : Except StoreError Unit

namespace Attempt

def Failed (a : Attempt) : Prop := ∃ e, a.answer = .error e

theorem failed_or_ok (a : Attempt) : a.Failed ∨ a.answer = .ok () := by
  obtain ⟨began, ended, answer⟩ := a
  cases answer with
  | error e => exact .inl ⟨e, rfl⟩
  | ok u => exact .inr rfl

/-- What a journal tells of the attempt with this number, of at most so many. -/
def entries (rows : List Row) (most : Nat) (pause : Nat → Duration) (number : Nat) (a : Attempt) :
    List (Instant × Happening) :=
  [(a.began, .insert rows), (a.ended, .inserted rows a.answer)] ++
    match a.answer with
    | .ok _ => [(a.ended, .notice (.batchInserted rows.length number))]
    | .error e =>
      if number < most then
        [(a.ended, .notice (.insertFailed rows.length number (pause number) e))]
      else []

end Attempt

namespace Store

/-- An attempt that begins at an instant, and the store after it. -/
def attempt (store : Store τ ψ) (rows : List Row) (s : τ) (now : Instant) : Attempt × τ :=
  let (delay, call, s) := store.insert s now rows
  let (answer, s) := store.finish s (now + delay) call rows
  (⟨now, now + delay, answer⟩, s)

variable (store : Store τ ψ) (rows : List Row) (pause : Nat → Duration) (s : τ) (now : Instant)

/-- The store before an attempt that follows so many others, and the instant at which it begins:
after `n` attempts `pause n` is waited for. -/
def before : Nat → τ × Instant
  | 0 => (s, now)
  | n + 1 =>
    let (a, s) := store.attempt rows (before n).1 (before n).2
    (s, (pause (n + 1)).overAt a.ended)

/-- The attempts of a store that is asked again and again, counted from zero. -/
def attempts (n : Nat) : Attempt :=
  let (s, now) := store.before rows pause s now n
  (store.attempt rows s now).1

theorem attempts_succ_began (n : Nat) :
    (store.attempts rows pause s now (n + 1)).began
      = (pause (n + 1)).overAt (store.attempts rows pause s now n).ended := rfl

end Store

namespace Writing

theorem Outcome.after_after (o : Outcome τ) (a b : List (Instant × Happening)) :
    (o.after a).after b = o.after (b ++ a) := by
  simp only [Outcome.after, List.append_assoc]

section Proceeding

variable (store : Store τ ψ) (retry : Retry) (rows : List Row)

/-- Begins an attempt and goes on from it for at most so many steps. -/
def proceed (fuel number : Nat) (s : τ) (now : Instant) : Option (Outcome τ) :=
  let (w, s, journal) := call store s now rows number
  (run store retry rows fuel w s).map (·.after (journal.map (now, ·)))

theorem write_eq_proceed (s : τ) (now : Instant) :
    write store retry s now rows = proceed store retry rows (2 * retry.maxAttempts) 1 s now := rfl

variable {store rows} {s : τ} {now : Instant}

theorem proceed_ok (hAnswer : (store.attempt rows s now).1.answer = .ok ()) (fuel number : Nat) :
    proceed store retry rows (fuel + 1) number s now
      = some ⟨.ok number, (store.attempt rows s now).1.ended, (store.attempt rows s now).2,
          (store.attempt rows s now).1.entries rows retry.maxAttempts retry.pause number⟩ := by
  rcases hInsert : store.insert s now rows with ⟨delay, c, s'⟩
  rcases hFinish : store.finish s' (now + delay) c rows with ⟨answer, s''⟩
  simp only [Store.attempt, hInsert, hFinish] at hAnswer ⊢
  simp [proceed, call, run, step, due, hInsert, hFinish, hAnswer, Outcome.after, Attempt.entries]

theorem proceed_error {e : StoreError} (hAnswer : (store.attempt rows s now).1.answer = .error e)
    {number : Nat} (hLast : retry.maxAttempts ≤ number) (fuel : Nat) :
    proceed store retry rows (fuel + 1) number s now
      = some ⟨.error ⟨rows.length, number, e⟩, (store.attempt rows s now).1.ended,
          (store.attempt rows s now).2,
          (store.attempt rows s now).1.entries rows retry.maxAttempts retry.pause number⟩ := by
  rcases hInsert : store.insert s now rows with ⟨delay, c, s'⟩
  rcases hFinish : store.finish s' (now + delay) c rows with ⟨answer, s''⟩
  simp only [Store.attempt, hInsert, hFinish] at hAnswer ⊢
  simp [proceed, call, run, step, due, hInsert, hFinish, hAnswer, Outcome.after, Attempt.entries,
    hLast, Nat.not_lt.mpr hLast]

/-- After a failed attempt that is not the last comes a pause, and after it the next attempt. -/
theorem proceed_again (hFailed : (store.attempt rows s now).1.Failed) {number : Nat}
    (hLess : number < retry.maxAttempts) (fuel : Nat) :
    proceed store retry rows (fuel + 2) number s now
      = (proceed store retry rows fuel (number + 1) (store.attempt rows s now).2
          ((retry.pause number).overAt (store.attempt rows s now).1.ended)).map
          (·.after ((store.attempt rows s now).1.entries rows retry.maxAttempts retry.pause
            number)) := by
  obtain ⟨e, hAnswer⟩ := hFailed
  have hNext : Retry.nextAttempt number = number + 1 := by
    simp only [Retry.nextAttempt, Retry.maxAttempts] at hLess ⊢
    omega
  rcases hInsert : store.insert s now rows with ⟨delay, c, s'⟩
  rcases hFinish : store.finish s' (now + delay) c rows with ⟨answer, s''⟩
  simp only [Store.attempt, hInsert, hFinish] at hAnswer ⊢
  simp only [proceed, call, run, due, hInsert, step, hFinish, hAnswer]
  rw [if_neg (Nat.not_le.mpr hLess)]
  simp only [hNext]
  -- From here on it does not matter when the pause is over.
  generalize (retry.pause number).overAt (now + delay) = later
  simp [Attempt.entries, hLess, Option.map_map, Function.comp_def, Outcome.after_after]

section Sequence

variable (store rows s now)

def before (n : Nat) : τ × Instant := store.before rows retry.pause s now n

def attempts (n : Nat) : Attempt := store.attempts rows retry.pause s now n

theorem attempts_eq (n : Nat) :
    attempts store retry rows s now n
      = (store.attempt rows (before store retry rows s now n).1
          (before store retry rows s now n).2).1 := rfl

end Sequence

/-- As long as all attempts fail, the writing makes one after another. -/
theorem proceed_failed {k : Nat} (hLess : k < retry.maxAttempts)
    (hFailed : ∀ i < k, (attempts store retry rows s now i).Failed) (fuel : Nat) :
    proceed store retry rows (fuel + 2 * k) 1 s now
      = (proceed store retry rows fuel (k + 1) (before store retry rows s now k).1
          (before store retry rows s now k).2).map
          (·.after ((List.range k).flatMap fun i =>
            (attempts store retry rows s now i).entries rows retry.maxAttempts retry.pause
              (i + 1))) := by
  induction k generalizing fuel with
  | zero => simp [before, Store.before, Outcome.after]
  | succ k ih =>
    have hEarlier := ih (by omega) (fun i hi => hFailed i (by omega)) (fuel + 2)
    have hHere := hFailed k (by omega)
    rw [attempts_eq] at hHere
    have hAgain := proceed_again retry hHere hLess fuel
    have hFuel : fuel + 2 * (k + 1) = fuel + 2 + 2 * k := by omega
    rw [hFuel, hEarlier, hAgain, Option.map_map, List.range_succ, List.flatMap_append,
      List.flatMap_singleton]
    simp only [Function.comp_def, Outcome.after_after]
    rfl

/-- Either some attempt is the first to succeed, or as many as are allowed fail. -/
theorem first_ok_or_all_failed (attempts : Nat → Attempt) (most : Nat) :
    (∃ k < most, (∀ i < k, (attempts i).Failed) ∧ (attempts k).answer = .ok ()) ∨
      ∀ i < most, (attempts i).Failed := by
  induction most with
  | zero => exact .inr fun i hi => absurd hi (Nat.not_lt_zero i)
  | succ most ih =>
    obtain ⟨k, hk, hFirst⟩ | hAll := ih
    · exact .inl ⟨k, Nat.lt_succ_of_lt hk, hFirst⟩
    · obtain hFailed | hOk := (attempts most).failed_or_ok
      · refine .inr fun i hi => ?_
        obtain hLess | rfl := Nat.lt_succ_iff_lt_or_eq.mp hi
        · exact hAll i hLess
        · exact hFailed
      · exact .inl ⟨most, Nat.lt_succ_self most, hAll, hOk⟩

/-- What a writing amounts to that makes so many attempts. -/
structure Makes (attempts : Nat → Attempt) (rows : List Row) (made : Nat) (o : Outcome τ) : Prop where
  time : o.time = (attempts (made - 1)).ended
  journal : o.journal = (List.range made).flatMap fun i =>
    (attempts i).entries rows retry.maxAttempts retry.pause (i + 1)

theorem write_ok {k : Nat} (hLess : k < retry.maxAttempts)
    (hFailed : ∀ i < k, (attempts store retry rows s now i).Failed)
    (hOk : (attempts store retry rows s now k).answer = .ok ()) :
    ∃ o, write store retry s now rows = some o ∧ o.result = .ok (k + 1) ∧
      Makes retry (attempts store retry rows s now) rows (k + 1) o := by
  have hBefore := proceed_failed retry hLess hFailed (2 * (retry.maxAttempts - k - 1) + 1 + 1)
  rw [attempts_eq] at hOk
  have hLast := proceed_ok retry hOk (2 * (retry.maxAttempts - k - 1) + 1) (k + 1)
  have hFuel : 2 * (retry.maxAttempts - k - 1) + 1 + 1 + 2 * k = 2 * retry.maxAttempts := by omega
  rw [hFuel, ← write_eq_proceed, hLast] at hBefore
  refine ⟨_, hBefore, rfl, rfl, ?_⟩
  rw [List.range_succ, List.flatMap_append, List.flatMap_singleton]
  rfl

theorem write_error (hFailed : ∀ i < retry.maxAttempts, (attempts store retry rows s now i).Failed) :
    ∃ o e, write store retry s now rows = some o ∧
      (attempts store retry rows s now (retry.maxAttempts - 1)).answer = .error e ∧
      o.result = .error ⟨rows.length, retry.maxAttempts, e⟩ ∧
      Makes retry (attempts store retry rows s now) rows retry.maxAttempts o := by
  obtain ⟨k, hMost⟩ : ∃ k, retry.maxAttempts = k + 1 := by
    have hPos := Worker.maxAttempts_pos retry
    exact ⟨retry.maxAttempts - 1, by omega⟩
  have hLess : k < retry.maxAttempts := by omega
  obtain ⟨e, hAnswer⟩ := hFailed k hLess
  have hBefore := proceed_failed retry hLess (fun i hi => hFailed i (by omega)) (1 + 1)
  rw [attempts_eq] at hAnswer
  have hLast := proceed_error retry hAnswer (Nat.le_of_eq hMost) 1
  have hFuel : 1 + 1 + 2 * k = 2 * retry.maxAttempts := by omega
  rw [hFuel, ← write_eq_proceed, hLast] at hBefore
  refine ⟨_, e, hBefore, ?_, ?_, ?_, ?_⟩
  · rw [hMost]
    exact hAnswer
  · rw [hMost]
    rfl
  · rw [hMost]
    rfl
  · rw [hMost, List.range_succ, List.flatMap_append, List.flatMap_singleton, ← hMost]
    rfl

end Proceeding

/-- A pause that is cut short is cut short to whole milliseconds. -/
theorem waited_pause_isWhole {retry : Retry} (h : retry.unit.IsWhole) (n : Nat) :
    (retry.pause n).waited.IsWhole := by
  have hLong : Duration.longestWait ≤ Duration.longest := by decide
  rw [Retry.pause, Duration.times, Duration.waited, Nat.min_assoc, Nat.min_eq_right hLong,
    Nat.mul_comm]
  exact (h.mul n).waited

/-- A batch is tried until an attempt succeeds, or as often as its policy allows; either way the
writing comes to an end. Every attempt sends the same rows. Between the `n`-th attempt and the next
one a pause of `n` units is asked for, though no longer than the longest duration, of which no more
is waited than can be waited at once. The wait is never shorter, and longer by less than a
millisecond; it is exact if units are whole milliseconds and the attempt ended at one. After the last
attempt there is no pause. -/
theorem retried_until_stored (store : Store τ ψ) (retry : Retry) (s : τ) (now : Instant)
    (b : Batch) :
    let most := min (retry.maxRetries + 1) 4294967295
    let pause := fun n : Nat => min (retry.unit * n) Duration.longest
    let attempts := store.attempts b.rows pause s now
    (attempts 0).began = now ∧
    (∀ i,
      let ready := (attempts i).ended + min (pause (i + 1)) Duration.longestWait
      ready ≤ (attempts (i + 1)).began ∧ (attempts (i + 1)).began < ready + .ofMillis 1 ∧
      (retry.unit.IsWhole → (attempts i).ended.IsWhole → (attempts (i + 1)).began = ready)) ∧
    ∃ o made, write store retry s now b.rows = some o ∧
      o.journal = (List.range made).flatMap (fun i =>
        (attempts i).entries b.rows most pause (i + 1)) ∧
      o.time = (attempts (made - 1)).ended ∧
      (∀ k < most, (∀ i < k, (attempts i).Failed) → (attempts k).answer = .ok () →
        made = k + 1 ∧ o.result = .ok made) ∧
      ((∀ i < most, (attempts i).Failed) →
        made = most ∧ ∃ e, (attempts (most - 1)).answer = .error e ∧
          o.result = .error ⟨b.length, most, e⟩) := by
  intro most pause attempts
  refine ⟨rfl, fun i => ?_, ?_⟩
  · have hBegan := store.attempts_succ_began b.rows pause s now i
    intro ready
    rw [hBegan]
    exact ⟨Duration.le_overAt _ _, Duration.overAt_lt _ _, fun hUnit hEnded =>
      Duration.overAt_of_isWhole (waited_pause_isWhole hUnit (i + 1)) hEnded⟩
  have hOnce : ∀ {i}, (attempts i).Failed → (attempts i).answer ≠ .ok () := by
    rintro i ⟨e, hError⟩ hOk
    rw [hError] at hOk
    cases hOk
  obtain ⟨k, hLess, hFailed, hOk⟩ | hAll := first_ok_or_all_failed attempts most
  · obtain ⟨o, hWrite, hResult, hMakes⟩ := write_ok retry hLess hFailed hOk
    refine ⟨o, k + 1, hWrite, hMakes.journal, hMakes.time, ?_, ?_⟩
    · intro k' hLess' hFailed' hOk'
      obtain hBelow | rfl | hAbove := Nat.lt_trichotomy k k'
      · exact absurd hOk (hOnce (hFailed' k hBelow))
      · exact ⟨rfl, hResult⟩
      · exact absurd hOk' (hOnce (hFailed k' hAbove))
    · intro hAll
      exact absurd hOk (hOnce (hAll k hLess))
  · obtain ⟨o, e, hWrite, hAnswer, hResult, hMakes⟩ := write_error retry hAll
    refine ⟨o, most, hWrite, hMakes.journal, hMakes.time, ?_, ?_⟩
    · intro k hLess _ hOk
      exact absurd hOk (hOnce (hAll k hLess))
    · intro _
      refine ⟨rfl, e, hAnswer, ?_⟩
      rw [hResult, Batch.rows, List.length_map]
      rfl

/-- A store that refuses twice takes the rows at the third attempt, after pauses of one second and of
two. -/
theorem third_attempt_stores :
    let store := PlannedStore.store
    let b : Batch := [⟨{}, 0, 7, 1⟩]
    let attempts := store.attempts b.rows
      (fun n => min (Duration.ofSeconds 1 * n) Duration.longest) { refusals := 2 } 0
    (2 < min (3 + 1) 4294967295 ∧ (∀ i < 2, (attempts i).Failed) ∧ (attempts 2).answer = .ok ()) ∧
    (attempts 2).began = (attempts 1).ended + .ofSeconds 2 ∧
    ∃ o, write store {} { refusals := 2 } 0 b.rows = some o ∧ o.result = .ok 3 ∧
      o.time = .ofSeconds 3 := by
  intro store b attempts
  have hLess : 2 < min (3 + 1) 4294967295 := by decide
  have hFailed : ∀ i < 2, (attempts i).Failed := by
    intro i hi
    obtain rfl | rfl : i = 0 ∨ i = 1 := by omega
    · exact ⟨.rejected "scripted failure", rfl⟩
    · exact ⟨.rejected "scripted failure", rfl⟩
  have hOk : (attempts 2).answer = .ok () := rfl
  have hEnded : (attempts 2).ended = .ofSeconds 3 := by decide
  obtain ⟨-, hPauses, o, made, hWrite, -, hTime, hFirst, -⟩ :=
    retried_until_stored store {} { refusals := 2 } 0 b
  obtain ⟨-, -, hExact⟩ := hPauses 1
  obtain ⟨rfl, hResult⟩ := hFirst 2 hLess hFailed hOk
  exact ⟨⟨hLess, hFailed, hOk⟩, hExact (by decide) (by decide), o, hWrite, hResult,
    hTime.trans hEnded⟩

/-- A pause of more than thirty years is cut short: the second attempt comes too early. -/
theorem long_pause_cut_short :
    let unit := Duration.ofMillis 1000000000000
    let second := Duration.ofMillis 946080000000
    ∃ o, write PlannedStore.store { unit } { refusals := 1 } 0 [.ofEvent {}] = some o ∧
      o.journal.map Prod.fst = [0, 0, 0, second, second, second] ∧
      second < 0 + min (unit * 1) Duration.longest := by
  intro unit second
  refine ⟨_, rfl, ?_, ?_⟩
  · decide
  · decide

end Writing

end EventIngest
