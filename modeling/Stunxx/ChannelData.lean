import Stunxx.Span

/-!
# ChannelData

`ChannelData.hpp`: the frames a TURN client and server exchange on a channel beside STUN messages.
The class has no `type`, so it is no attribute; its encoder issues stores as theirs do. The payload
is a view of the caller's bytes and is those bytes here.
-/

namespace Stunxx

open Overlay

structure ChannelData where
  channelNumber : UInt16 := 0
  payload : Bytes := []
deriving DecidableEq

namespace ChannelData

def chanHeaderSize : Nat := 4

def isValidChannel (ch : UInt16) : Bool := decide (0x4000 ≤ ch) && decide (ch ≤ 0x7FFF)

def paddedLength (c : ChannelData) : Nat := roundUp4 c.payload.length

def totalSize (c : ChannelData) : Nat := chanHeaderSize + c.paddedLength

def encode (c : ChannelData) (size : Nat) : Bool × List Store :=
  if !isValidChannel c.channelNumber then (false, [])
  else if size < c.totalSize then (false, [])
  else
    let padding := c.paddedLength - c.payload.length
    (true, memcpy 0 (writeBe16 c.channelNumber) ::
      memcpy 2 (writeBe16 (UInt16.ofNat c.payload.length)) :: memcpy chanHeaderSize c.payload ::
      if 0 < padding then [memset (chanHeaderSize + c.payload.length) 0 padding] else [])

def decode (buffer : Bytes) : Option ChannelData :=
  match buffer with
  | b0 :: b1 :: b2 :: b3 :: rest =>
    let channel := readBe16 b0 b1
    if !isValidChannel channel then none
    else
      let length := readBe16 b2 b3
      if buffer.length < chanHeaderSize + length.toNat then none
      else some ⟨channel, rest.take length.toNat⟩
  | _ => none

def isChannelData : Bytes → Bool
  | b0 :: b1 :: _ => isValidChannel (readBe16 b0 b1)
  | _ => false

theorem isValidChannel_iff {ch : UInt16} :
    isValidChannel ch = true ↔ 0x4000 ≤ ch ∧ ch ≤ 0x7FFF := by
  rw [isValidChannel, Bool.and_eq_true, decide_eq_true_eq, decide_eq_true_eq]

/-! ## Frames -/

/-- The header and the payload on the wire. The length is cut to 16 bits. -/
def frame (c : ChannelData) : Bytes :=
  writeBe16 c.channelNumber ++ writeBe16 (UInt16.ofNat c.payload.length) ++ c.payload

theorem length_frame (c : ChannelData) : c.frame.length = chanHeaderSize + c.payload.length := by
  simp only [frame, List.length_append, length_writeBe16, chanHeaderSize]

theorem length_frame_padding (c : ChannelData) :
    (c.frame ++ padding c.payload.length).length = c.totalSize := by
  have hle := le_roundUp4 c.payload.length
  rw [List.length_append, length_frame, length_padding, totalSize, paddedLength]
  omega

theorem encode_ok_iff {c : ChannelData} {size : Nat} :
    (c.encode size).1 = true ↔ isValidChannel c.channelNumber = true ∧ c.totalSize ≤ size := by
  unfold encode
  rcases isValidChannel c.channelNumber with _ | _
  · simp
  · by_cases hroom : size < c.totalSize
    · simp [hroom]
    · simp [hroom, Nat.le_of_not_lt hroom]

/-- A successful `encode` leaves the frame and its padding, and nothing else. -/
theorem patch_encode {c : ChannelData} {xs : Bytes} (hok : (c.encode xs.length).1 = true) :
    patch xs 0 (c.encode xs.length).2 = overlay xs 0 (c.frame ++ padding c.payload.length) := by
  obtain ⟨hvalid, hroom⟩ := encode_ok_iff.1 hok
  have hpad : c.paddedLength - c.payload.length =
      roundUp4 c.payload.length - c.payload.length := rfl
  rw [encode, if_neg (by simp [hvalid]), if_neg (Nat.not_lt.2 hroom)]
  have hcont : Contiguous 0 (memcpy 0 (writeBe16 c.channelNumber) ::
      memcpy 2 (writeBe16 (UInt16.ofNat c.payload.length)) :: memcpy chanHeaderSize c.payload ::
      if 0 < c.paddedLength - c.payload.length then
        [memset (chanHeaderSize + c.payload.length) 0 (c.paddedLength - c.payload.length)]
      else []) := by
    refine ⟨rfl, rfl, rfl, ?_⟩
    split
    · exact ⟨rfl, trivial⟩
    · trivial
  rw [patch_of_contiguous xs 0 hcont, Nat.add_zero]
  congr 1
  simp only [List.flatMap_cons, memcpy_items, frame, List.append_assoc, hpad, padding]
  split
  · simp
  · next hfull => simp [Nat.eq_zero_of_not_pos hfull]

/-- A frame is read off the front of any bytes. -/
theorem decode_frame_append {c : ChannelData} (hvalid : isValidChannel c.channelNumber = true)
    (hlt : c.payload.length < 65536) (rest : Bytes) : decode (c.frame ++ rest) = some c := by
  obtain ⟨b0, b1, hchannel⟩ : ∃ b0 b1, writeBe16 c.channelNumber = [b0, b1] := ⟨_, _, rfl⟩
  obtain ⟨b2, b3, hlength⟩ :
    ∃ b2 b3, writeBe16 (UInt16.ofNat c.payload.length) = [b2, b3] := ⟨_, _, rfl⟩
  have hlen := (take_of_writeBe16 hlength hlt rest).1
  have hsplit : c.frame ++ rest = b0 :: b1 :: b2 :: b3 :: (c.payload ++ rest) := by
    rw [frame, hchannel, hlength]
    rfl
  rw [hsplit]
  simp only [decode, readBe16_of_writeBe16 hchannel, hvalid, hlen, List.take_left]
  rw [if_neg (by decide), if_neg]
  show ¬(c.payload ++ rest).length + 4 < 4 + c.payload.length
  rw [List.length_append]
  omega

/-- **What `decode` accepts**: a frame with a channel in range, whatever follows it. -/
theorem decode_eq_some_iff {buffer : Bytes} {c : ChannelData} :
    decode buffer = some c ↔ isValidChannel c.channelNumber = true ∧ c.payload.length < 65536 ∧
      ∃ rest, buffer = c.frame ++ rest := by
  constructor
  · intro h
    unfold decode at h
    split at h
    · next b0 b1 b2 b3 rest =>
      simp only [Option.ite_none_left_eq_some, Option.some.injEq] at h
      obtain ⟨hvalid, hroom, rfl⟩ := h
      have hlen : (rest.take (readBe16 b2 b3).toNat).length = (readBe16 b2 b3).toNat := by
        rw [List.length_take, chanHeaderSize, List.length_cons] at *
        simp only [List.length_cons] at hroom
        omega
      refine ⟨by simpa using hvalid, ?_, rest.drop (readBe16 b2 b3).toNat, ?_⟩
      · rw [hlen]
        exact (readBe16 b2 b3).toNat_lt
      · simp only [frame]
        rw [hlen, UInt16.ofNat_toNat, writeBe16_readBe16, writeBe16_readBe16, List.append_assoc,
          List.take_append_drop]
        rfl
    · cases h
  · rintro ⟨hvalid, hlt, rest, rfl⟩
    exact decode_frame_append hvalid hlt rest

end ChannelData

end Stunxx
