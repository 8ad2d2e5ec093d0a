import EventIngest.DeadLetter
import EventIngest.Proofs.JsonRecords
/-!
# Dead letters on the wire

The envelope of a message that was put aside is read back from its wire form. Its payload shows the
bytes of the message as far as text can, and is not changed by a further round.
-/
namespace EventIngest

open Json Utf8

structure Handle.IsSound (h : Handle) : Prop where
  partition : Decimal.Width.int32.holds h.partition = true
  offset : Decimal.Width.int64.holds h.offset = true
  deliveryCount : Decimal.Width.count32.holds h.deliveryCount = true

namespace DeadLetter

theorem shape_plain : shape.IsPlain := ⟨by decide, by decide⟩

theorem ofMembers_members (d : DeadLetter) : ofMembers d.members = d := rfl

variable (failedAt topic reason : String) {handle : Handle} (raw : List UInt8)

theorem admits_ofMessage (h : handle.IsSound) :
    shape.Admits (ofMessage failedAt topic handle raw reason).members := by
  apply Shape.admits_of_names shape_plain rfl
  simp [members, Shape.Allows, shape, Kind.Fits, ofMessage, h.partition, h.offset, h.deliveryCount]

theorem ofBytes_wire (h : handle.IsSound) :
    ofBytes (encode (ofMessage failedAt topic handle raw reason).wire)
      = .ok (ofMessage failedAt topic handle raw reason) := by
  have hRead := Shape.read_written shape_plain (admits_ofMessage failedAt topic reason raw h)
  rw [ofBytes, wire, hRead]
  exact congrArg Except.ok (ofMembers_members _)

/-- Lossy decoding loses nothing of UTF-8, and something of all other bytes. -/
theorem encode_lossy_iff : encode (lossy raw) = raw ↔ raw.toByteArray.IsValidUTF8 := by
  constructor
  · intro h
    exact ⟨(lossy raw).toList, congrArg List.toByteArray h.symm⟩
  · rintro ⟨cs, h⟩
    obtain rfl : raw = bytesOf cs := List.toByteArray_inj.mp h
    rw [← encode_ofList, lossy_encode]

/-- The envelope of a message is read back from its wire form, with the same text again, whatever
its texts and its bytes. The payload is the bytes' own text exactly if they are UTF-8. In general
they have one reading from left to right as characters and maximal ill-formed parts, and the payload
has the characters in order with one U+FFFD for each of those parts; an envelope made of the payload
has the same payload. -/
theorem envelope_recoverable (h : handle.IsSound) :
    let d := ofMessage failedAt topic handle raw reason
    ofBytes (encode d.wire) = .ok d ∧
    (ofBytes (encode d.wire)).map wire = .ok d.wire ∧
    (encode d.payload = raw ↔ raw.toByteArray.IsValidUTF8) ∧
    (∃ ps, (∀ others, Reading raw others ↔ others = ps) ∧
      d.payload.toList = ps.map (·.getD '\uFFFD')) ∧
    ∀ failedAt' topic' handle' reason',
      (ofMessage failedAt' topic' handle' (encode d.payload) reason').payload = d.payload := by
  intro d
  have hRead : ofBytes (encode d.wire) = .ok d := ofBytes_wire failedAt topic reason raw h
  refine ⟨hRead, by rw [hRead]; rfl, encode_lossy_iff raw, ⟨pieces raw, fun others => ?_, ?_⟩,
    fun _ _ _ _ => lossy_encode (lossy raw)⟩
  · rw [reading_iff, eq_comm]
  · exact String.toList_ofList

/-- A truncated character before a letter, an overlong form, a surrogate and a character that the end
cuts off. -/
def garbled : List UInt8 :=
  [0xE2, 0x82, 0x41, 0xC0, 0xAF, 0xED, 0xA0, 0x80, 0xF0, 0x9F]

def limits : Handle := ⟨-0x80000000, 0x7FFFFFFFFFFFFFFF, 0xFFFFFFFF⟩

theorem garbled_recoverable :
    let d := ofMessage "\"\\" "\x00𝄞" limits garbled "\n"
    ofBytes (encode d.wire) = .ok d ∧ ¬ garbled.toByteArray.IsValidUTF8 ∧
      d.payload = "\uFFFDA\uFFFD\uFFFD\uFFFD\uFFFD\uFFFD\uFFFD" := by
  have hLimits : limits.IsSound := ⟨by decide, by decide, by decide⟩
  obtain ⟨hRead, -, hSame, -⟩ := envelope_recoverable "\"\\" "\x00𝄞" "\n" garbled hLimits
  exact ⟨hRead, fun hValid => absurd (hSame.mpr hValid) (by decide), by rfl⟩

end DeadLetter

end EventIngest
