import Stunxx.ChannelData
import Stunxx.Verify.DecodeLoop

/-!
# Telling STUN from ChannelData

A STUN message starts with two zero bits and a ChannelData frame does not, so a receiver tells
them apart by their first byte. `decode` does not look at these bits. The buffers that both
decoders accept are exactly the messages whose type lies in the range of channel numbers:
such a message is always long enough for a ChannelData frame.
-/

namespace Stunxx

open Overlay Tlv

namespace Decoder

/-- A message starts with its type and its length. -/
theorem exists_cons_of_take {buffer : Bytes} {h : StunHeader} (htake : buffer.take 20 = h.wire) :
    ∃ b0 b1 b2 b3 rest, buffer = b0 :: b1 :: b2 :: b3 :: rest ∧
      readBe16 b0 b1 = h.msgType ∧ readBe16 b2 b3 = h.msgLength := by
  have hlen := congrArg List.length htake
  rw [List.length_take, StunHeader.length_wire] at hlen
  match buffer, hlen with
  | b0 :: b1 :: b2 :: b3 :: rest, _ =>
    refine ⟨b0, b1, b2, b3, rest, rfl, ?_, ?_⟩
    · refine readBe16_of_writeBe16 ?_
      exact (congrArg (List.take 2) htake).symm
    · refine readBe16_of_writeBe16 ?_
      exact (congrArg (slice · 2 2) htake).symm

/-- On a message, ChannelData only looks at the range of the type. -/
theorem channelData_of_framed {buffer : Bytes} {h : StunHeader} (hf : Framed buffer h) :
    (ChannelData.isChannelData buffer = true ↔ 0x4000 ≤ h.msgType ∧ h.msgType ≤ 0x7FFF) ∧
      ((ChannelData.decode buffer).isSome = true ↔ 0x4000 ≤ h.msgType ∧ h.msgType ≤ 0x7FFF) := by
  have hroom := hf.room
  obtain ⟨b0, b1, b2, b3, rest, rfl, htype, hlength⟩ := exists_cons_of_take hf.take_eq
  rw [← ChannelData.isValidChannel_iff]
  constructor
  · rw [ChannelData.isChannelData, htype]
  · unfold ChannelData.decode
    simp only [htype, hlength]
    rcases hvalid : ChannelData.isValidChannel h.msgType with _ | _
    · rw [if_pos (by rw [Bool.not_false])]
      exact Iff.rfl
    · rw [if_neg (by simp), if_neg (by rw [ChannelData.chanHeaderSize]; omega)]
      exact Iff.rfl

/-- **At most one of the two decoders accepts a buffer, unless it is a message whose type is a
channel number.** -/
theorem exclusive_iff (buffer : Bytes) :
    (¬(∃ d c, parse buffer = .ok (some d) ∧ ChannelData.decode buffer = some c) ∧
      (ChannelData.isChannelData buffer = true → parse buffer = .ok none)) ↔
      ¬∃ h rs, Grammar buffer h rs ∧ 0x4000 ≤ h.msgType ∧ h.msgType ≤ 0x7FFF := by
  rw [parse_eq_none_iff]
  constructor
  · rintro ⟨-, hnone⟩ ⟨h, rs, hg, hrange⟩
    exact hnone ((channelData_of_framed hg.toFramed).1.2 hrange) ⟨h, rs, hg⟩
  · intro hnot
    constructor
    · rintro ⟨d, c, hparse, hdec⟩
      obtain ⟨h, rs, hg, -⟩ := parse_eq_some_iff.1 hparse
      have hsome := (channelData_of_framed hg.toFramed).2.1 (by rw [hdec]; rfl)
      exact hnot ⟨h, rs, hg, hsome⟩
    · rintro hchannel ⟨h, rs, hg⟩
      exact hnot ⟨h, rs, hg, (channelData_of_framed hg.toFramed).1.1 hchannel⟩

/-- A message without attributes, of type 0x4000. -/
def channelHeader : StunHeader := ⟨0x4000, 0, magicCookie, ByteArrayN.zero 12⟩

theorem channelHeader_grammar : Grammar channelHeader.wire channelHeader [] where
  take_eq := rfl
  cookie := rfl
  room := Nat.le_refl 20
  tiling := .rest (by decide)

/-- Both decoders accept it. -/
theorem not_exclusive :
    ¬(¬(∃ d c, parse channelHeader.wire = .ok (some d) ∧
        ChannelData.decode channelHeader.wire = some c) ∧
      (ChannelData.isChannelData channelHeader.wire = true →
        parse channelHeader.wire = .ok none)) := by
  rintro ⟨hone, -⟩
  exact hone ⟨_, ⟨0x4000, []⟩, parse_eq_some_iff.2 ⟨_, _, channelHeader_grammar, rfl⟩,
    by decide +kernel⟩

end Decoder

end Stunxx
