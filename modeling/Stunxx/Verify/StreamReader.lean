import Stunxx.Lib.Framer
import Stunxx.Verify.BuilderChain
import Stunxx.Verify.ChannelFrames
import Stunxx.Verify.Demux
import Stunxx.Verify.Framing

/-!
# STUN messages and ChannelData frames on a stream

A TURN client and server send both kinds of packets over one TCP connection. A caller that reads it
asks `isChannelData` which kind is in front, `ChannelData::decode` or `parseHeader` how long it is,
and waits for the rest of it (`nextPacket`). What is in front does not change when more arrives, so
the packets do not depend on how the bytes were cut on the way, whatever they are
(`receive_chunks`), and the packets of well-behaved senders all arrive (`stream_delivers`).
-/

namespace Stunxx

open Overlay Tlv Machine

inductive Packet
  | message (d : Decoder)
  | channelData (c : ChannelData)
deriving DecidableEq

/-- The packet in front of a stream, and its size. A frame is taken with its padding. -/
def nextPacket (buffer : Bytes) : Option (Packet × Nat) :=
  if ChannelData.isChannelData buffer then
    match ChannelData.decode buffer with
    | some c => if buffer.length < c.totalSize then none else some (.channelData c, c.totalSize)
    | none => none
  else
    match Decoder.parseHeader buffer with
    | .ok (some h) =>
      let total := stunHeaderSize + h.msgLength.toNat
      if buffer.length < total then none
      else
        match Decoder.parse (buffer.take total) with
        | .ok (some d) => some (.message d, total)
        | _ => none
    | _ => none

/-- The two ways in which a stream starts with a packet. -/
inductive StartsWith (buffer : Bytes) : Packet → Nat → Prop
  | channelData {c : ChannelData} (hdecode : ChannelData.decode buffer = some c)
      (hroom : c.totalSize ≤ buffer.length) :
      StartsWith buffer (.channelData c) c.totalSize
  | message {h : StunHeader} {rs : List WireAttr} (hnot : ChannelData.isChannelData buffer = false)
      (hg : Grammar (buffer.take (20 + h.msgLength.toNat)) h rs) :
      StartsWith buffer
        (.message (Decoder.parsed (buffer.take (20 + h.msgLength.toNat)) h rs))
        (20 + h.msgLength.toNat)

theorem isChannelData_of_decode {buffer : Bytes} {c : ChannelData}
    (h : ChannelData.decode buffer = some c) : ChannelData.isChannelData buffer = true := by
  obtain ⟨hvalid, -, rest, rfl⟩ := ChannelData.decode_eq_some_iff.1 h
  obtain ⟨b0, b1, hchannel⟩ : ∃ b0 b1, writeBe16 c.channelNumber = [b0, b1] := ⟨_, _, rfl⟩
  rw [ChannelData.frame, hchannel]
  exact (congrArg _ (readBe16_of_writeBe16 hchannel)).trans hvalid

/-- The kind of a packet is told from its first two bytes. -/
theorem isChannelData_append {buffer : Bytes} (h : 2 ≤ buffer.length) (more : Bytes) :
    ChannelData.isChannelData (buffer ++ more) = ChannelData.isChannelData buffer := by
  match buffer, h with
  | b0 :: b1 :: rest, _ => rfl

theorem nextPacket_eq_some_iff {buffer : Bytes} {p : Packet} {n : Nat} :
    nextPacket buffer = some (p, n) ↔ StartsWith buffer p n := by
  constructor
  · intro h
    unfold nextPacket at h
    split at h
    · split at h
      · next c hdecode =>
        obtain ⟨hroom, heq⟩ := Option.ite_none_left_eq_some.1 h
        cases heq
        exact .channelData hdecode (Nat.le_of_not_lt hroom)
      · cases h
    · next hnot =>
      split at h
      · next header hparse =>
        obtain ⟨hroom, h⟩ := Option.ite_none_left_eq_some.1 h
        split at h
        · next d hmessage =>
          cases h
          obtain ⟨g, rs, hg, rfl⟩ := Decoder.parse_eq_some_iff.1 hmessage
          -- the header in front is the one of the message that is cut off
          obtain ⟨htake, hcookie⟩ := Decoder.parseHeader_eq_some_iff.1 hparse
          have hsame : (buffer.take (20 + header.msgLength.toNat)).take 20 = header.wire := by
            rw [List.take_take, Nat.min_eq_left (Nat.le_add_right 20 _), htake]
          obtain rfl := StunHeader.wire_inj (hg.take_eq.symm.trans hsame)
          exact .message (by simpa using hnot) hg
        · cases h
      · cases h
  · intro h
    cases h with
    | channelData hdecode hroom =>
      rw [nextPacket, if_pos (isChannelData_of_decode hdecode), hdecode]
      exact if_neg (Nat.not_lt.2 hroom)
    | @message h rs hnot hg =>
      have hlen := hg.room
      rw [List.length_take] at hlen
      have htake := hg.take_eq
      rw [List.take_take, Nat.min_eq_left (Nat.le_add_right 20 _)] at htake
      have hparse := Decoder.parseHeader_eq_some_iff.2 ⟨htake, hg.cookie⟩
      have hmessage := Decoder.parse_eq_some_iff.2 ⟨h, rs, hg, rfl⟩
      have hroom : ¬buffer.length < 20 + h.msgLength.toNat := by omega
      rw [nextPacket, if_neg (by simp [hnot])]
      simp only [hparse, stunHeaderSize, hroom, if_false, hmessage]

namespace StartsWith

variable {buffer : Bytes} {p : Packet} {n : Nat}

theorem bounds (h : StartsWith buffer p n) : 0 < n ∧ n ≤ buffer.length := by
  cases h with
  | @channelData c _ hroom => exact ⟨Nat.lt_of_lt_of_le (by decide) (Nat.le_add_right 4 _), hroom⟩
  | message _ hg =>
    have hlen := hg.room
    rw [List.length_take] at hlen
    omega

theorem append (h : StartsWith buffer p n) (more : Bytes) : StartsWith (buffer ++ more) p n := by
  have hbounds := h.bounds
  cases h with
  | channelData hdecode hroom =>
    obtain ⟨hvalid, hlt, rest, heq⟩ := ChannelData.decode_eq_some_iff.1 hdecode
    refine .channelData (ChannelData.decode_eq_some_iff.2 ⟨hvalid, hlt, rest ++ more, ?_⟩) ?_
    · rw [heq, List.append_assoc]
    · rw [List.length_append]
      omega
  | message hnot hg =>
    have htake : (buffer ++ more).take _ = buffer.take _ :=
      List.take_append_of_le_length hbounds.2
    rw [← htake] at hg ⊢
    exact .message (by rwa [isChannelData_append (by omega)]) hg

/-- A message that is all there starts the stream, if its type is no channel number. -/
theorem of_parse {d : Decoder} (hparse : Decoder.parse buffer = .ok (some d))
    (htype : d.stunHeader.msgType < 0x4000)
    (hlen : 20 + d.stunHeader.msgLength.toNat = buffer.length) :
    StartsWith buffer (.message d) buffer.length := by
  obtain ⟨h, rs, hg, rfl⟩ := Decoder.parse_eq_some_iff.1 hparse
  have hwhole : 20 + h.msgLength.toNat = buffer.length := hlen
  have htake : buffer.take (20 + h.msgLength.toNat) = buffer := by
    rw [hwhole, List.take_length]
  have hnot : ChannelData.isChannelData buffer = false := by
    rw [Bool.eq_false_iff, ne_eq, (Decoder.channelData_of_framed hg.toFramed).1]
    exact fun hrange => absurd hrange.1 (UInt16.not_le.2 htype)
  have hcut : Grammar (buffer.take (20 + h.msgLength.toNat)) h rs := by rwa [htake]
  have hstarts := StartsWith.message hnot hcut
  rwa [htake, hwhole] at hstarts

end StartsWith

/-- The reader of the two kinds of packets. -/
def packetFramer : Framer UInt8 Packet where
  next := nextPacket
  pos h := (nextPacket_eq_some_iff.1 h).bounds.1
  le_length h := (nextPacket_eq_some_iff.1 h).bounds.2
  stable h more := nextPacket_eq_some_iff.2 ((nextPacket_eq_some_iff.1 h).append more)

/-- A packet as the decoders read it from the bytes that were cut off for it. -/
def Packet.CutFrom : Packet → Bytes → Prop
  | .message d, piece => Decoder.parse piece = .ok (some d) ∧
      20 + d.stunHeader.msgLength.toNat = piece.length
  | .channelData c, piece => ChannelData.decode piece = some c ∧ c.totalSize = piece.length

theorem StartsWith.cutFrom {piece more : Bytes} {p : Packet}
    (h : StartsWith (piece ++ more) p piece.length) : p.CutFrom piece := by
  generalize hbuffer : piece ++ more = buffer, hn : piece.length = n at h
  have hpiece : buffer.take n = piece := by rw [← hbuffer, ← hn, List.take_left]
  cases h with
  | @channelData c hdecode hroom =>
    obtain ⟨hvalid, hlt, rest, heq⟩ := ChannelData.decode_eq_some_iff.1 hdecode
    refine ⟨ChannelData.decode_eq_some_iff.2 ⟨hvalid, hlt, piece.drop c.frame.length, ?_⟩, hn.symm⟩
    have hle : c.frame.length ≤ piece.length := by
      rw [hn, ← c.length_frame_padding, List.length_append]
      omega
    have htake : piece.take c.frame.length = c.frame := by
      have hfront := congrArg (List.take c.frame.length) (hbuffer.trans heq)
      rwa [List.take_append_of_le_length hle, List.take_left] at hfront
    rw [← htake, List.length_take, Nat.min_eq_left hle, List.take_append_drop]
  | message hnot hg =>
    rw [hpiece] at hg ⊢
    exact ⟨Decoder.parse_eq_some_iff.2 ⟨_, _, hg, rfl⟩, hn.symm⟩

/-- **Whatever arrives**, well formed or not: every byte belongs to one delivered packet, which is
what the decoders read from its bytes, or is kept; and the packets and the rest are the same for
every way to cut the bytes into chunks. -/
theorem receive_chunks (chunks : List Bytes) :
    (∃ pieces, chunks.flatten = pieces.flatten ++ (run packetFramer.receive [] chunks).2 ∧
        List.Forall₂ Packet.CutFrom (run packetFramer.receive [] chunks).1.flatten pieces) ∧
      nextPacket (run packetFramer.receive [] chunks).2 = none ∧
      ∀ chunks' : List Bytes, chunks'.flatten = chunks.flatten →
        (run packetFramer.receive [] chunks').1.flatten =
            (run packetFramer.receive [] chunks).1.flatten ∧
          (run packetFramer.receive [] chunks').2 = (run packetFramer.receive [] chunks).2 := by
  have hempty : packetFramer.next [] = none := rfl
  have hall := packetFramer.run_receive hempty chunks
  obtain ⟨hpackets, hrest⟩ := Prod.mk.inj hall
  rw [hpackets, hrest]
  refine ⟨?_, packetFramer.next_rest _, fun chunks' h => ?_⟩
  · obtain ⟨pieces, heq, hcut⟩ := packetFramer.exists_pieces ([] ++ chunks.flatten)
    refine ⟨pieces, heq, hcut.imp fun p piece hmore => ?_⟩
    obtain ⟨more, hnext⟩ := hmore
    exact (nextPacket_eq_some_iff.1 hnext).cutFrom
  · rw [← h]
    exact Prod.mk.inj (packetFramer.run_receive hempty chunks')

/-! ## What senders put on the stream -/

/-- A packet in the making: the calls on an encoder of a library message type, or a frame that is
encoded into a buffer. -/
inductive Sending
  | message (method : StunMethod) (cls : StunClass) (tid : TransactionId) (buffer : Bytes)
      (calls : List AddCall)
  | channelData (c : ChannelData) (buffer : Bytes)

namespace Sending

variable [Platform]

/-- The bytes that are sent. -/
def bytes : Sending → Bytes
  | message method cls tid buffer calls =>
    (run Encoder.add (Encoder.new (messageType method cls) tid buffer) calls).2.message
  | channelData c buffer => (c.written buffer).take c.totalSize

/-- Every call succeeded, the last seal is behind everything else, and what was encoded is in the
limits of the formats. -/
def Succeeds : Sending → Prop
  | message method cls tid buffer calls =>
    20 ≤ buffer.length ∧
      (∀ r ∈ (run Encoder.add (Encoder.new (messageType method cls) tid buffer) calls).1,
        r.ok = true) ∧
      (run Encoder.add (Encoder.new (messageType method cls) tid buffer) calls).2.totalSize - 20 ≤
        65535 ∧
      SealsLast calls ∧ ∀ c ∈ calls, c.Readable tid
  | channelData c buffer => (c.encode buffer.length).1 = true ∧ c.payload.length ≤ 65535

/-- The packet that was sent. -/
inductive Arrives : Sending → Packet → Prop
  | message {method : StunMethod} {cls : StunClass} {tid : TransactionId} {buffer : Bytes}
      {calls : List AddCall} {d : Decoder}
      (hreceived : Received (messageType method cls) tid calls
        (run Encoder.add (Encoder.new (messageType method cls) tid buffer) calls).1 d) :
      Arrives (message method cls tid buffer calls) (.message d)
  | channelData (c : ChannelData) (buffer : Bytes) :
      Arrives (channelData c buffer) (.channelData c)

omit [Platform] in
/-- No message type of the library is taken for a channel number. -/
theorem messageType_lt (method : StunMethod) (cls : StunClass) :
    messageType method cls < 0x4000 := by
  cases method <;> cases cls <;> decide

/-- A packet that was sent is recognised, with its size. -/
theorem Succeeds.next {s : Sending} (h : s.Succeeds) :
    ∃ p, nextPacket s.bytes = some (p, s.bytes.length) ∧ s.Arrives p := by
  cases s with
  | channelData c buffer =>
    obtain ⟨hok, hlt⟩ := h
    have hbytes : (channelData c buffer).bytes = c.frame ++ padding c.payload.length :=
      ChannelData.take_written hok
    have hdecode := ChannelData.decode_frame_append (ChannelData.encode_ok_iff.1 hok).1
      (Nat.lt_succ_of_le hlt) (padding c.payload.length)
    refine ⟨.channelData c, ?_, .channelData c buffer⟩
    rw [nextPacket_eq_some_iff, hbytes, c.length_frame_padding]
    exact .channelData hdecode (Nat.le_of_eq c.length_frame_padding.symm)
  | message method cls tid buffer calls =>
    obtain ⟨hsize, hok, hbound, hlast, hread⟩ := h
    have hsent := sent_run (messageType method cls) tid buffer hok
    have hlength := hsent.toInv.length_message hsize
    obtain ⟨d, hparse, htotal, hreceived⟩ := hsent.received hsize hbound
      (by rwa [map_fst_history]) fun x hx => hread x.1 (mem_of_mem_history Encoder.add hx)
    rw [map_fst_history, map_snd_history] at hreceived
    have hwhole := hsent.length_field hsize hbound (by rwa [map_fst_history]) hparse
    have htype : d.stunHeader.msgType < 0x4000 :=
      hreceived.msgType ▸ messageType_lt method cls
    exact ⟨.message d, nextPacket_eq_some_iff.2 (.of_parse hparse htype hwhole),
      .message hreceived⟩

end Sending

/-- **Every packet arrives**: messages and frames that senders put on a stream, in any order, are
delivered in this order, with nothing between and behind them, however the stream is cut. -/
theorem stream_delivers [Platform] {sendings : List Sending} (h : ∀ s ∈ sendings, s.Succeeds)
    {chunks : List Bytes} (hchunks : chunks.flatten = sendings.flatMap Sending.bytes) :
    List.Forall₂ Sending.Arrives sendings (run packetFramer.receive [] chunks).1.flatten ∧
      (run packetFramer.receive [] chunks).2 = [] := by
  have hempty : packetFramer.next [] = none := rfl
  have hrun := packetFramer.run_receive hempty chunks
  rw [List.nil_append, hchunks] at hrun
  obtain ⟨packets, hpackets, hall⟩ := packetFramer.exists_drain_flatMap
    (fun s hs => (h s hs).next) []
  rw [List.append_nil, packetFramer.drain_of_none hempty, List.append_nil] at hpackets
  rw [hpackets] at hrun
  obtain ⟨hdelivered, hrest⟩ := Prod.mk.inj hrun
  exact ⟨hdelivered ▸ hall, hrest⟩

/-! A frame behind a Binding request, cut inside the request. -/

local instance streamHost : Platform := .ofDigest []

theorem stream_delivers_priority :
    let calls : List AddCall := [.ordinary ⟨.priority, rfl, ⟨7⟩⟩]
    let sendings : List Sending :=
      [.message .binding .request (ByteArrayN.zero 12) (List.replicate 28 0) calls,
        .channelData ⟨0x4000, [1, 2, 3]⟩ (List.replicate 8 0)]
    let stream := sendings.flatMap Sending.bytes
    (run packetFramer.receive [] [stream.take 7, stream.drop 7]).2 = [] := by
  intro calls sendings stream
  have hread : ∀ c ∈ calls, c.Readable (ByteArrayN.zero 12) := by
    intro c hc a ha
    subst ha
    simp only [calls, List.mem_singleton, AddCall.ordinary.injEq] at hc
    subst hc
    exact ⟨trivial, by decide⟩
  have hseals : SealsLast calls := .inl fun c hc => by
    rw [List.mem_singleton.1 hc]
    rfl
  have hsucceeds : ∀ s ∈ sendings, s.Succeeds := by
    intro s hs
    rcases List.mem_cons.1 hs with rfl | hs
    · exact ⟨by decide, by decide +kernel, by decide +kernel, hseals, hread⟩
    · rw [List.mem_singleton.1 hs]
      exact ⟨by decide +kernel, by decide⟩
  exact (stream_delivers hsucceeds (by simp [stream])).2

end Stunxx
