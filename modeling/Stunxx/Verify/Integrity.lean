import Stunxx.Verify.EncoderInv

/-!
# MESSAGE-INTEGRITY stays verifiable

A receiver checks a MESSAGE-INTEGRITY at offset `o` against the message up to `o` with the length
field set to end at the attribute (`macInput`). The encoder took its HMAC over exactly these bytes,
and later calls only rewrite the length field in front of `o`: so whatever is called afterwards,
the digest in the final buffer is the one the receiver computes.
-/

namespace Stunxx

open Overlay Machine Digits

/-- The message up to `o`, under a length that counts an attribute of `n` bytes at `o`. -/
def macInput (message : Bytes) (o n : Nat) : Bytes :=
  overlay (message.take o) 2 (beBytes 2 (o - 20 + 4 + n))

namespace Encoder

section Digest

variable [Platform] {type : UInt16} {tid : TransactionId} {size : Nat} {e : Encoder}

/-- The message under its header. -/
theorem Inv.take_eq (h : Inv type tid size e) (hw : e.HeaderWritten) {o : Nat} (ho : 20 ≤ o) :
    ∃ length, e.buffer.bytes.take o =
      StunHeader.wire ⟨type, length, magicCookie, tid⟩ ++ slice e.buffer.bytes 20 (o - 20) := by
  obtain ⟨length, hlength⟩ := h.header
  refine ⟨length, ?_⟩
  rw [take_eq_append_slice _ ho, hw, hlength, netHeader_bytes]

/-- What the HMAC of an added MESSAGE-INTEGRITY is taken over. -/
theorem Inv.take_announce (h : Inv type tid size e) (hroom : 20 ≤ size) (n : Nat) :
    (e.announce n).buffer.bytes.take e.offset =
      StunHeader.wire ⟨type, UInt16.ofNat (e.offset - 20 + n), magicCookie, tid⟩ ++
        slice e.buffer.bytes 20 (e.offset - 20) := by
  obtain ⟨length, hlength⟩ := h.header
  have hoff := h.le_offset
  have hext := extends_writeLength e (UInt16.ofNat (e.offset - 20 + n))
  have hwritten := headerWritten_writeLength (h.header_room hroom)
    (UInt16.ofNat (e.offset - 20 + n))
  rw [announce_eq, take_eq_append_slice _ hoff, hext.slice_eq (Nat.le_refl _) (by omega), hwritten,
    ← netHeader_bytes, Encoder.writeLength, hlength]
  rfl

/-- The bytes a receiver feeds to the HMAC are those the encoder did, in any later message. -/
theorem macInput_eq (h : Inv type tid size e) {f : Encoder} (hf : Inv type tid size f)
    (hw : f.HeaderWritten) (hext : Extends e f) (hroom : 20 ≤ size) (n : Nat) :
    macInput f.buffer.bytes e.offset n = (e.announce (4 + n)).buffer.bytes.take e.offset := by
  have hoff := h.le_offset
  obtain ⟨length, htake⟩ := hf.take_eq hw hoff
  have hwire := StunHeader.length_wire ⟨type, length, magicCookie, tid⟩
  rw [macInput, htake, h.take_announce hroom, hext.slice_eq (Nat.le_refl _) (by omega),
    ← writeBe16_ofNat, overlay_append_left _ (by rw [hwire]; exact Nat.le_add_left 4 16),
    StunHeader.overlay_wire, Nat.add_assoc]

/-- What a successful add of a MESSAGE-INTEGRITY leaves in every message that extends its own. -/
theorem Outcome.digest_eq (h : Inv type tid size e) {kind : IntegrityKind} {a : kind.Obj}
    {r : AddResult} {f g : Encoder} (hout : Outcome e (.integrity kind a) r f) (hok : r.ok = true)
    (hg : Inv type tid size g) (hext : Extends f g) :
    Platform.hmac (MessageIntegrityAttrT.md kind.type) a.key
        (macInput g.buffer.bytes e.offset kind.expectedSize) =
      some (slice g.buffer.bytes (e.offset + 4) kind.expectedSize) := by
  have hwhole := hout.extends.trans hext
  cases hout with
  | refused => cases hok
  | announced => cases hok
  | @integrity _ _ digest hroom hdigest hsize =>
    have hoff := h.le_offset
    have hlen := h.length_eq
    have hpad := padded_of_hmac (a := .ofHmac (T := kind.type) digest) hsize
    have hwritten := hg.written (hext.sealed_of (.inl rfl))
    have hinput := macInput_eq h hg hwritten hwhole (by omega) kind.expectedSize
    have hvalue : slice g.buffer.bytes (e.offset + 4) kind.expectedSize = digest := by
      have hend : (e.sign kind.type digest).offset = e.offset + (4 + kind.expectedSize) :=
        congrArg (e.offset + ·) hpad
      have hcases : kind.expectedSize = 20 ∨ kind.expectedSize = 32 :=
        MessageIntegrityAttrT.expectedSize_cases kind.type
      rw [hext.slice_eq (by omega) (by rw [hend]; omega), ← hsize]
      apply slice_append_value (e.announce (sealSize kind.type))
        (MessageIntegrityAttrT.ofHmac (T := kind.type) digest)
      · exact beq_iff_eq.2 hsize
      · rw [hpad]
        exact hroom.trans_eq (length_announce e _).symm
      · exact hsize.trans_lt (by omega)
    rw [hinput, hvalue]
    exact hdigest

/-- **MESSAGE-INTEGRITY stays verifiable**: after any run, an add of a MESSAGE-INTEGRITY that
succeeds, and any further run, the digest in the buffer is the HMAC of what a receiver takes. -/
theorem integrity_verifiable (type : UInt16) (tid : TransactionId) (buffer : Bytes)
    (pre : List Call) (kind : IntegrityKind) (a : kind.Obj) (post : List Call)
    (hadd : ((run step (new type tid buffer) pre).2.add (.integrity kind a)).1.ok = true) :
    let e := (run step (new type tid buffer) pre).2
    let final := (run step (e.add (.integrity kind a)).2 post).2.buffer.bytes
    Platform.hmac (MessageIntegrityAttrT.md kind.type) a.key
        (macInput final e.totalSize kind.expectedSize) =
      some (slice final (e.totalSize + 4) kind.expectedSize) := by
  have hinv := (inv_new type tid buffer).run pre
  have hout := add_outcome (run step (new type tid buffer) pre).2 (.integrity kind a)
  exact hout.digest_eq hinv hadd ((hinv.outcome hout).run post) (extends_run _ post)

end Digest

/-- The host that signs a message of one PRIORITY with the key `key`. -/
@[reducible] def priorityHost : Platform :=
  .ofDigest [0xC4, 0xEA, 0x77, 0x33, 0x35, 0xFF, 0x64, 0x67, 0x18, 0x8D, 0x17, 0x4A, 0xEB, 0x53,
    0x91, 0xB4, 0xB2, 0xE9, 0xA9, 0x5C]

theorem integrity_verifiable_priority :
    letI := priorityHost
    let a : IntegrityKind.sha1.Obj := .ofKey [0x6B, 0x65, 0x79]
    let e := (run step (new 0x0001 (ByteArrayN.zero 12) (List.replicate 64 0))
      [.add (.ordinary ⟨.priority, rfl, ⟨7⟩⟩)]).2
    let final := (run step (e.add (.integrity .sha1 a)).2
      [.add .fingerprint, .finalize]).2.buffer.bytes
    Platform.hmac (MessageIntegrityAttrT.md IntegrityKind.sha1.type) a.key
        (macInput final e.totalSize IntegrityKind.sha1.expectedSize) =
      some (slice final (e.totalSize + 4) IntegrityKind.sha1.expectedSize) := by
  have h := @integrity_verifiable priorityHost 0x0001 (ByteArrayN.zero 12) (List.replicate 64 0)
    [.add (.ordinary ⟨.priority, rfl, ⟨7⟩⟩)] .sha1 (.ofKey [0x6B, 0x65, 0x79])
    [.add .fingerprint, .finalize] (by decide +kernel)
  exact h

end Encoder

end Stunxx
