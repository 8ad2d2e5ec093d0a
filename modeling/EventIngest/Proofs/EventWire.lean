import EventIngest.Event.Basic
import EventIngest.Proofs.JsonRecords
/-!
# Events on the wire

An event is read back from its own wire form, and so is whatever was read as an event from other
bytes.
-/
namespace EventIngest

open Json Utf8

namespace Event

structure IsSound (e : Event) : Prop where
  severity : Decimal.Width.int32.holds e.severity = true
  timestamp : Calendar.covers e.timestamp = true

theorem shape_plain : shape.IsPlain := ⟨by decide, by decide⟩

theorem ofMembers_members (e : Event) : ofMembers e.members = e := rfl

theorem int64_holds_of_covers {t : Int} (h : Calendar.covers t = true) :
    Decimal.Width.int64.holds t = true := by
  have hCovers : Calendar.earliest ≤ t ∧ t ≤ Calendar.latest := of_decide_eq_true h
  apply decide_eq_true
  unfold Decimal.Width.int64
  unfold Calendar.earliest Calendar.latest at hCovers
  constructor <;> dsimp only <;> omega

theorem admits_members {e : Event} (hSeverity : Decimal.Width.int32.holds e.severity = true)
    (hTimestamp : Decimal.Width.int64.holds e.timestamp = true) : shape.Admits e.members := by
  apply Shape.admits_of_names shape_plain rfl
  simp [members, Shape.Allows, shape, Kind.Fits, hTimestamp, hSeverity]

theorem IsSound.admits {e : Event} (h : e.IsSound) : shape.Admits e.members :=
  admits_members h.severity (int64_holds_of_covers h.timestamp)

theorem encode_wire_ne_nil (e : Event) : encode e.wire ≠ [] := by
  rw [wire, encode_writeObject]
  exact List.cons_ne_nil _ _

theorem IsSound.ofBytes_wire {e : Event} (h : e.IsSound) : ofBytes (encode e.wire) = .ok e := by
  have hRead := Shape.read_written shape_plain h.admits
  rw [ofBytes, if_neg (by simpa using encode_wire_ne_nil e), wire, hRead]
  simp only [ofMembers_members, h.timestamp, if_true]

/-- What is read as an event has a severity of 32 bits and a timestamp within the calendar. -/
theorem isSound_of_ofBytes {bytes : List UInt8} {e : Event} (h : ofBytes bytes = .ok e) :
    e.IsSound := by
  rw [ofBytes] at h
  split at h
  · cases h
  split at h
  · cases h
  rename_i members hRead
  dsimp only at h
  split at h
  · obtain rfl := Except.ok.inj h
    have hCollects := (Shape.admits_of_read shape_plain hRead).toCollects
    exact ⟨hCollects.holds_whole? shape_plain (by decide) (by decide), ‹_›⟩
  · cases h

/-- The events that are read back from their wire form are the ones with a severity of 32 bits and a
timestamp within the calendar, whatever their texts. So no two of them share a wire form, and what
was read as an event from any bytes is read again from its own wire form. -/
theorem read_back_from_wire :
    (∀ e : Event, ofBytes (encode e.wire) = .ok e ↔ e.IsSound) ∧
    (∀ e e' : Event, e.IsSound → e'.IsSound → encode e.wire = encode e'.wire → e = e') ∧
    ∀ bytes (e : Event), ofBytes bytes = .ok e → ofBytes (encode e.wire) = .ok e := by
  refine ⟨fun e => ⟨isSound_of_ofBytes, IsSound.ofBytes_wire⟩, fun e e' h h' hSame => ?_,
    fun bytes e h => (isSound_of_ofBytes h).ofBytes_wire⟩
  have hRead := h.ofBytes_wire
  rw [hSame, h'.ofBytes_wire] at hRead
  exact (Except.ok.inj hRead).symm

/-- Texts with a quote, a backslash, control characters and characters beyond sixteen bits, and
numbers at their limits. -/
def escaped : Event where
  agentId := "\"\\\x00\x1F/\x7F"
  timestamp := Calendar.earliest
  payload := "é\uFFFF𝄞\n"
  severity := -0x80000000

/-- The list `["a",-1]`. -/
def listed : List UInt8 := [0x5B, 0x22, 0x61, 0x22, 0x2C, 0x2D, 0x31, 0x5D]

theorem escaped_and_listed_read_back :
    ofBytes (encode escaped.wire) = .ok escaped ∧
    encode escaped.wire ≠ encode ({ escaped with hostname := "\\" } : Event).wire ∧
    ofBytes listed = .ok { agentId := "a", timestamp := -1 } ∧
    ofBytes (encode ({ agentId := "a", timestamp := -1 } : Event).wire)
      = .ok { agentId := "a", timestamp := -1 } := by
  have hSound : escaped.IsSound := ⟨by decide, by decide⟩
  have hOther : ({ escaped with hostname := "\\" } : Event).IsSound := ⟨by decide, by decide⟩
  have hListed : ofBytes listed = .ok { agentId := "a", timestamp := -1 } := by rfl
  refine ⟨(read_back_from_wire.1 escaped).mpr hSound, fun hSame => ?_, hListed,
    read_back_from_wire.2.2 listed _ hListed⟩
  exact absurd (read_back_from_wire.2.1 _ _ hSound hOther hSame) (by decide)

end Event

end EventIngest
