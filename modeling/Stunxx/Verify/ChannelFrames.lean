import Stunxx.ChannelData

/-!
# The round trip of a ChannelData frame

`encode` checks its span against the real size of the payload and casts that size to 16 bits for
the length field. A frame is read back, also out of a longer buffer, as long as the size fits; a
longer payload is copied whole under a cut length. What `decode` accepts has a payload that fits,
so it is always reproduced.
-/

namespace Stunxx

open Overlay

namespace ChannelData

/-- The buffer `xs` after `encode`. -/
def written (c : ChannelData) (xs : Bytes) : Bytes := patch xs 0 (c.encode xs.length).2

/-- If the frame was encoded over `xs`, it is decoded from what was written, whatever follows. -/
def ReadBack (c : ChannelData) (xs : Bytes) : Prop :=
  (c.encode xs.length).1 = true →
    ∀ rest, decode ((c.written xs).take c.totalSize ++ rest) = some c

/-- What was written is the frame and its padding. -/
theorem take_written {c : ChannelData} {xs : Bytes} (hok : (c.encode xs.length).1 = true) :
    (c.written xs).take c.totalSize = c.frame ++ padding c.payload.length := by
  have hlen := c.length_frame_padding
  have hroom : 0 + (c.frame ++ padding c.payload.length).length ≤ xs.length := by
    rw [hlen, Nat.zero_add]
    exact (encode_ok_iff.1 hok).2
  rw [written, patch_encode hok, ← hlen]
  exact slice_overlay_self hroom

theorem readBack_iff (c : ChannelData) (xs : Bytes) :
    c.ReadBack xs ↔ c.payload.length ≤ 65535 ∨ isValidChannel c.channelNumber = false ∨
      xs.length < c.totalSize := by
  constructor
  · intro h
    by_cases hok : (c.encode xs.length).1 = true
    · have hlt := (decode_eq_some_iff.1 (h hok [])).2.1
      exact .inl (Nat.le_of_lt_succ hlt)
    · rw [encode_ok_iff, not_and_or, Bool.not_eq_true, Nat.not_le] at hok
      exact .inr hok
  · intro h hok rest
    obtain ⟨hvalid, hroom⟩ := encode_ok_iff.1 hok
    have hsize : c.payload.length ≤ 65535 := by
      rcases h with hsize | hinvalid | hshort
      · exact hsize
      · rw [hvalid] at hinvalid
        cases hinvalid
      · exact absurd hroom (Nat.not_le.2 hshort)
    rw [decode_eq_some_iff, take_written hok, List.append_assoc]
    exact ⟨hvalid, Nat.lt_succ_of_le hsize, _, rfl⟩

/-- A frame that was decoded is reproduced, with its padding cleared. -/
theorem written_of_decode {buffer : Bytes} {c : ChannelData} (h : decode buffer = some c)
    {xs : Bytes} (hroom : c.totalSize ≤ xs.length) :
    (c.encode xs.length).1 = true ∧ (c.written xs).take c.totalSize =
      buffer.take (chanHeaderSize + c.payload.length) ++ padding c.payload.length := by
  obtain ⟨hvalid, -, rest, rfl⟩ := decode_eq_some_iff.1 h
  have hok := encode_ok_iff.2 ⟨hvalid, hroom⟩
  refine ⟨hok, ?_⟩
  rw [take_written hok, ← length_frame, List.take_left]

/-- **When a frame comes back.** A frame that was encoded is decoded to the same channel and
payload exactly if the payload is at most 65535 bytes long, or if nothing was encoded. Conversely
every frame that is decoded is reproduced. -/
theorem frame_round_trip_iff (c : ChannelData) (xs : Bytes) :
    (c.ReadBack xs ↔ c.payload.length ≤ 65535 ∨ isValidChannel c.channelNumber = false ∨
      xs.length < c.totalSize) ∧
    ∀ buffer, decode buffer = some c → c.totalSize ≤ xs.length →
      (c.encode xs.length).1 = true ∧ (c.written xs).take c.totalSize =
        buffer.take (chanHeaderSize + c.payload.length) ++ padding c.payload.length :=
  ⟨readBack_iff c xs, fun _ h hroom => written_of_decode h hroom⟩

/-- A length of 65536 is cut to zero. -/
theorem frame_of_cut {c : ChannelData} (h : c.payload.length = 65536) :
    c.frame = (⟨c.channelNumber, []⟩ : ChannelData).frame ++ c.payload := by
  have hcut : UInt16.ofNat 65536 = UInt16.ofNat 0 := rfl
  rw [frame, frame, h, hcut, List.append_nil]
  rfl

/-- A payload of 65536 bytes is encoded whole, under a length of zero, and read back empty. -/
theorem long_payload_lost :
    ∃ (c : ChannelData) (xs : Bytes), c.channelNumber = 0x4000 ∧ c.payload.length = 65536 ∧
      xs.length = 65540 ∧ (c.encode xs.length).1 = true ∧
      decode ((c.written xs).take c.totalSize) = some ⟨0x4000, []⟩ ∧ ¬c.ReadBack xs := by
  obtain ⟨payload, hpayload⟩ : ∃ bs : Bytes, bs.length = 65536 :=
    ⟨List.replicate 65536 0, List.length_replicate⟩
  obtain ⟨xs, hxs⟩ : ∃ xs : Bytes, xs.length = 65540 :=
    ⟨List.replicate 65540 0, List.length_replicate⟩
  have hvalid : isValidChannel 0x4000 = true := rfl
  have hsize : totalSize ⟨0x4000, payload⟩ = 65540 := by
    rw [totalSize, paddedLength, hpayload]
    rfl
  have hok : (encode ⟨0x4000, payload⟩ xs.length).1 = true :=
    encode_ok_iff.2 ⟨hvalid, by rw [hsize, hxs]⟩
  refine ⟨⟨0x4000, payload⟩, xs, rfl, hpayload, hxs, hok, ?_, ?_⟩
  · rw [take_written hok, decode_eq_some_iff, frame_of_cut hpayload, List.append_assoc]
    exact ⟨hvalid, by decide, _, rfl⟩
  · rw [readBack_iff]
    rintro (hfit | hinvalid | hshort)
    · have hlong : payload.length ≤ 65535 := hfit
      omega
    · have hvalid' : isValidChannel 0x4000 = false := hinvalid
      rw [hvalid] at hvalid'
      cases hvalid'
    · omega

end ChannelData

end Stunxx
