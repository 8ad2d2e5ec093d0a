import EventIngest.Event.Row
import EventIngest.Proofs.AcceptedTexts
import EventIngest.Proofs.CalendarDates
/-!
# Timestamps survive

A message is accepted exactly if its timestamp lies in the years of the calendar. The date and time
of an accepted event and the timestamp of its row are then those of the very millisecond that was
sent.
-/
namespace EventIngest

open Json Utf8

namespace Calendar

/-- The instant has a date in a year from `-262143` to `262142`. -/
def InYears (t : Int) : Prop :=
  ∃ d : DateTime, d.IsValid ∧ toMillis d = t ∧ -262143 ≤ d.date.year ∧ d.date.year ≤ 262142

theorem covers_iff_inYears {t : Int} : covers t = true ↔ InYears t := by
  rw [covers_iff]
  constructor
  · intro h
    obtain ⟨hValid, hMillis⟩ := ofMillis_eq_iff.mp (rfl : ofMillis t = ofMillis t)
    exact ⟨ofMillis t, hValid, hMillis, h⟩
  · rintro ⟨d, hValid, hMillis, h⟩
    rw [ofMillis_eq_iff.mpr ⟨hValid, hMillis⟩]
    exact h

theorem toMillis_nextDate {d : DateTime} (h : d.IsValid) :
    toMillis ⟨nextDate d.date, d.time⟩ = toMillis d + millisPerDay := by
  rw [toMillis, toMillis, dayNumber_nextDate h.1, Int.add_mul, Int.one_mul]
  exact Int.add_right_comm _ _ _

end Calendar

namespace Event

theorem carries_wire {e : Event} (hSeverity : Decimal.Width.int32.holds e.severity = true)
    (hTimestamp : Decimal.Width.int64.holds e.timestamp = true) : Carries (encode e.wire) e := by
  have hRead := Shape.read_written shape_plain (admits_members hSeverity hTimestamp)
  exact carries_iff.mpr ⟨e.members, hRead, ofMembers_members e⟩

/-- Every timestamp of 64 bits may stand in a message, which is accepted exactly if it lies in the
years of the calendar. The date and time of an accepted event are then the one valid date and time
that is as many milliseconds after the start of 1970, where a day has 86400000 of them and the dates
follow each other; and its row has the same timestamp. -/
theorem timestamps_survive :
    (∀ e : Event, Decimal.Width.int32.holds e.severity = true →
      Decimal.Width.int64.holds e.timestamp = true → Carries (encode e.wire) e) ∧
    (∀ bytes e, Carries bytes e →
      (ofBytes bytes = .ok e ↔ Calendar.InYears e.timestamp) ∧
      (¬ Calendar.InYears e.timestamp →
        ofBytes bytes = .error (.timestampOutOfRange e.timestamp))) ∧
    (∀ bytes e, ofBytes bytes = .ok e → Carries bytes e ∧
      (∀ d : DateTime, e.occurredAt = d ↔ d.IsValid ∧ Calendar.toMillis d = e.timestamp) ∧
      (Row.ofEvent e).timestamp = e.timestamp) ∧
    Calendar.toMillis ⟨⟨1970, 1, 1⟩, ⟨0, 0, 0, 0⟩⟩ = 0 ∧
    ∀ d : DateTime, d.IsValid →
      Calendar.toMillis ⟨Calendar.nextDate d.date, d.time⟩ = Calendar.toMillis d + 86400000 := by
  refine ⟨fun e => carries_wire, fun bytes e h => ?_, fun bytes e h => ?_, rfl,
    fun d => Calendar.toMillis_nextDate⟩
  · rw [h.ofBytes_eq, ← Calendar.covers_iff_inYears]
    by_cases hCovers : Calendar.covers e.timestamp = true
    · simp [hCovers]
    · simp [hCovers]
  · have hCovers := (isSound_of_ofBytes h).timestamp
    have hMillis : e.occurredMillis = e.timestamp := if_pos hCovers
    refine ⟨carries_of_ofBytes h, fun d => ?_, hMillis⟩
    rw [occurredAt, hMillis]
    exact Calendar.ofMillis_eq_iff

section Example

def leapDay : DateTime := ⟨⟨2000, 2, 29⟩, ⟨0, 0, 0, 1⟩⟩

/-- An event of the second millisecond of a leap day. -/
def onLeapDay : Event := { timestamp := 951782400001 }

def beforeEpoch : DateTime := ⟨⟨1969, 12, 31⟩, ⟨23, 59, 59, 999⟩⟩

/-- An event of the first millisecond after the calendar. -/
def tooLate : Event := { timestamp := 8210266876800000 }

theorem leapDay_valid : leapDay.IsValid ∧ Calendar.toMillis leapDay = 951782400001 := by
  unfold DateTime.IsValid Calendar.IsValid TimeOfDay.IsValid
  decide

theorem beforeEpoch_valid : beforeEpoch.IsValid ∧ Calendar.toMillis beforeEpoch = -1 := by
  unfold DateTime.IsValid Calendar.IsValid TimeOfDay.IsValid
  decide

theorem leap_day_survives :
    (Carries (encode onLeapDay.wire) onLeapDay ∧ ofBytes (encode onLeapDay.wire) = .ok onLeapDay ∧
      onLeapDay.occurredAt = leapDay ∧ (Row.ofEvent onLeapDay).timestamp = 951782400001) ∧
    (ofBytes listed = .ok { agentId := "a", timestamp := -1 } ∧
      ({ agentId := "a", timestamp := -1 } : Event).occurredAt = beforeEpoch) ∧
    ofBytes (encode tooLate.wire) = .error (.timestampOutOfRange 8210266876800000) ∧
    Calendar.toMillis ⟨Calendar.nextDate ⟨2000, 2, 29⟩, ⟨0, 0, 0, 1⟩⟩
      = Calendar.toMillis leapDay + 86400000 := by
  obtain ⟨carried, decided, kept, -, next⟩ := timestamps_survive
  have hCarried := carried onLeapDay (by decide) (by decide)
  have hInYears : Calendar.InYears onLeapDay.timestamp :=
    ⟨leapDay, leapDay_valid.1, leapDay_valid.2, by decide, by decide⟩
  have hRead := (decided (encode onLeapDay.wire) onLeapDay hCarried).1.mpr hInYears
  have hListed : ofBytes listed = .ok { agentId := "a", timestamp := -1 } := rfl
  have hLate := carried tooLate (by decide) (by decide)
  have hBeyond : ¬ Calendar.InYears tooLate.timestamp := by
    rw [← Calendar.covers_iff_inYears]
    decide
  obtain ⟨-, hLeapDay, hRow⟩ := kept (encode onLeapDay.wire) onLeapDay hRead
  obtain ⟨-, hBeforeEpoch, -⟩ := kept listed _ hListed
  exact ⟨⟨hCarried, hRead, (hLeapDay leapDay).mpr leapDay_valid, hRow⟩,
    ⟨hListed, (hBeforeEpoch beforeEpoch).mpr beforeEpoch_valid⟩,
    (decided (encode tooLate.wire) tooLate hLate).2 hBeyond, next leapDay leapDay_valid.1⟩

end Example

end Event

end EventIngest
