import EventIngest.Proofs.Deeds
import EventIngest.Source.Faulty
/-!
# Guarded sources

A guard stands in front of a source and decides of each call whether it fails before the source sees
it. Planned faults are a guard, and so is any other pattern of failing calls.
-/
namespace EventIngest

/-- What can come in the way of a fetch. -/
inductive Obstacle where
  | error (e : SourceError)
  | stalls
  | crashes

structure Guard (γ : Type) where
  fetch : γ → Option Obstacle × γ
  ack : γ → Handle → Option SourceError × γ
  nak : γ → Handle → Option SourceError × γ
  commit : γ → Option SourceError × γ
  deadLetter : γ → Handle → Option SourceError × γ

namespace Obstacle

def fetch {φ : Type} : Obstacle → Fetch φ
  | error e => .answered (.error e)
  | stalls => .stalled
  | crashes => .crashed

end Obstacle

/-- A call that reaches the source unless there is an error before it. -/
def Guard.pass {γ σ : Type} (verdict : Option SourceError × γ) (call : Answer × σ) (s : σ) :
    Answer × γ × σ :=
  match verdict with
  | (some e, g) => (.error e, g, s)
  | (none, g) => (call.1, g, call.2)

def Source.guarded {γ σ φ : Type} (guard : Guard γ) (source : Source σ φ) :
    Source (γ × σ) φ where
  fetch s max wait :=
    match guard.fetch s.1 with
    | (some obstacle, g) => (obstacle.fetch, g, s.2)
    | (none, g) => ((source.fetch s.2 max wait).1, g, (source.fetch s.2 max wait).2)
  resume s call := ((source.resume s.2 call).1, s.1, (source.resume s.2 call).2)
  ack s h := Guard.pass (guard.ack s.1 h) (source.ack s.2 h) s.2
  nak s h := Guard.pass (guard.nak s.1 h) (source.nak s.2 h) s.2
  commit s := Guard.pass (guard.commit s.1) (source.commit s.2) s.2
  deadLetter s h raw reason :=
    Guard.pass (guard.deadLetter s.1 h) (source.deadLetter s.2 h raw reason) s.2

def behind {α γ σ : Type} (act : σ → α → σ) (a : α) (s : γ × σ) : γ × σ := (s.1, act s.2 a)

namespace Guard

variable {γ σ φ : Type} (guard : Guard γ)

def free : Guard Unit where
  fetch _ := (none, ())
  ack _ _ := (none, ())
  nak _ _ := (none, ())
  commit _ := (none, ())
  deadLetter _ _ := (none, ())

theorem pass_cases (verdict : Option SourceError × γ) (call : Answer × σ) (s : σ) :
    (verdict.1 = none ∧ (pass verdict call s).1 = call.1 ∧ (pass verdict call s).2.2 = call.2) ∨
    (∃ e, verdict.1 = some e ∧ (pass verdict call s).1 = .error e ∧
      (pass verdict call s).2.2 = s) := by
  obtain ⟨_ | e, g⟩ := verdict
  · exact .inl ⟨rfl, rfl, rfl⟩
  · exact .inr ⟨e, rfl, rfl, rfl⟩

theorem pass_ok (verdict : Option SourceError × γ) (s s' : σ) :
    ((pass verdict (.ok (), s') s).1 = .ok () ∧ (pass verdict (.ok (), s') s).2.2 = s') ∨
    ∃ e, (pass verdict (.ok (), s') s).1 = .error e ∧ (pass verdict (.ok (), s') s).2.2 = s := by
  obtain ⟨-, hPass⟩ | ⟨e, -, hFail⟩ := pass_cases verdict (.ok (), s') s
  · exact .inl hPass
  · exact .inr ⟨e, hFail⟩

theorem fetch_cases (source : Source σ φ) (s : γ × σ) (max : Nat) (wait : Duration) :
    (((source.guarded guard).fetch s max wait).1 = (source.fetch s.2 max wait).1 ∧
      ((source.guarded guard).fetch s max wait).2.2 = (source.fetch s.2 max wait).2) ∨
    (∃ obstacle : Obstacle, ((source.guarded guard).fetch s max wait).1 = obstacle.fetch ∧
      ((source.guarded guard).fetch s max wait).2.2 = s.2) := by
  simp only [Source.guarded]
  rcases guard.fetch s.1 with ⟨_ | obstacle, g⟩
  · exact .inl ⟨rfl, rfl⟩
  · exact .inr ⟨obstacle, rfl, rfl⟩

end Guard

namespace Faults

def guard : Guard Faults where
  fetch faults :=
    let faults := { faults with fetches := faults.fetches + 1 }
    (if faults.fetches = faults.crashingFetch then some .crashes
      else if faults.fetches > faults.mostFetches then some .stalls else none, faults)
  ack faults h := (if faults.failingAcks.contains h.offset then some .closed else none, faults)
  nak faults h := (if faults.failingNaks.contains h.offset then some .closed else none, faults)
  commit faults :=
    match faults.failingCommits with
    | n + 1 => (some .closed, { faults with failingCommits := n })
    | 0 => (none, faults)
  deadLetter faults _ := (none, faults)

theorem faulty_eq_guarded {σ φ : Type} (source : Source σ φ) :
    source.faulty = source.guarded guard := by
  simp only [Source.faulty, Source.guarded, guard, Source.mk.injEq, true_and]
  refine ⟨?_, ?_, ?_, ?_, rfl⟩
  · funext s max wait
    obtain ⟨faults, s⟩ := s
    dsimp only
    by_cases hCrash : faults.fetches + 1 = faults.crashingFetch
    · rw [if_pos hCrash, if_pos hCrash]
      rfl
    · rw [if_neg hCrash, if_neg hCrash]
      split <;> rfl
  · funext s h
    obtain ⟨faults, s⟩ := s
    dsimp only
    split <;> rfl
  · funext s h
    obtain ⟨faults, s⟩ := s
    dsimp only
    split <;> rfl
  · funext s
    obtain ⟨faults, s⟩ := s
    cases faults.failingCommits <;> simp only <;> rfl

end Faults

end EventIngest
