import Stunxx.Attributes.Fixed
import Stunxx.Lib.Crc

/-!
# The CRC behind FINGERPRINT

`crc32Bitwise` is CRC-32 as it is specified, a bit at a time. The table of `crc32.hpp` holds eight
bit steps of every byte (`crcTable_eq`), so a turn of the table-driven loop absorbs a byte as the
specification does, and the whole loop computes it. The polynomial has its top bit, so messages
that differ in a window of four bytes have different fingerprints.
-/

namespace Stunxx

/-- The polynomial of CRC-32, reflected. -/
def crcPoly : BitVec 32 := 0xEDB88320#32

/-- CRC-32 bit by bit, with the register complemented on entry and on exit. -/
def crc32Bitwise (crc : BitVec 32) (m : Bytes) : BitVec 32 := ~~~Crc.absorbAll crcPoly (~~~crc) m

/-- The fingerprint of a message: its CRC-32, XORed with "STUN". -/
def fingerprintBitwise (m : Bytes) : BitVec 32 := crc32Bitwise 0 m ^^^ 0x5354554E#32

/-! ## The table -/

theorem crcTable_eq (i : Fin 256) :
    (crcTable.get i).toBitVec = Crc.bitSteps crcPoly 8 (BitVec.ofNat 32 i) := by
  revert i
  decide +kernel

/-- A turn of the loop absorbs a byte. -/
theorem toBitVec_crcStep (crc : UInt32) (byte : UInt8) :
    (crcStep crc byte).toBitVec = Crc.absorb crcPoly crc.toBitVec byte := by
  have htable : ∀ i : BitVec 8, (crcTable.get i.toFin).toBitVec =
      Crc.bitSteps crcPoly 8 (i.setWidth 32) := by
    intro i
    rw [← BitVec.ofNat_toNat]
    exact crcTable_eq i.toFin
  have hindex : ((crc ^^^ byte.toUInt32) &&& 0xFF).toUInt8.toBitVec =
      (crc.toBitVec ^^^ Crc.byteBits 32 byte).setWidth 8 := by
    rw [UInt32.toBitVec_toUInt8, UInt32.toBitVec_and, UInt32.toBitVec_xor,
      UInt8.toBitVec_toUInt32]
    apply BitVec.eq_of_toNat_eq
    rw [BitVec.toNat_setWidth, BitVec.toNat_and, BitVec.toNat_setWidth]
    have hmask := Nat.and_two_pow_sub_one_eq_mod
      (crc.toBitVec ^^^ Crc.byteBits 32 byte).toNat 8
    exact (congrArg (· % 2 ^ 8) hmask).trans (Nat.mod_mod _ _)
  rw [Crc.absorb_eq_table crcPoly htable, ← hindex, crcStep, UInt32.toBitVec_xor,
    UInt32.toBitVec_shiftRight]
  rfl

theorem toBitVec_foldl_crcStep (crc : UInt32) (m : Bytes) :
    (m.foldl crcStep crc).toBitVec = Crc.absorbAll crcPoly crc.toBitVec m := by
  induction m generalizing crc with
  | nil => rfl
  | cons b m ih => rw [List.foldl_cons, ih, toBitVec_crcStep, Crc.absorbAll_cons]

theorem toBitVec_complement (crc : UInt32) : (crc ^^^ 0xFFFFFFFF).toBitVec = ~~~crc.toBitVec := by
  rw [UInt32.toBitVec_xor]
  exact BitVec.xor_allOnes

theorem toBitVec_crc32Update (crc : UInt32) (m : Bytes) :
    (crc32Update crc m).toBitVec = crc32Bitwise crc.toBitVec m := by
  rw [crc32Update, toBitVec_complement, toBitVec_foldl_crcStep, toBitVec_complement, crc32Bitwise]

/-- A CRC can be continued where it stopped: the complements on exit and entry cancel. -/
theorem crc32Update_append (crc : UInt32) (a b : Bytes) :
    crc32Update crc (a ++ b) = crc32Update (crc32Update crc a) b := by
  apply UInt32.toBitVec_inj.1
  rw [toBitVec_crc32Update, toBitVec_crc32Update, toBitVec_crc32Update, crc32Bitwise, crc32Bitwise,
    crc32Bitwise, BitVec.not_not, Crc.absorbAll_append]

theorem toBitVec_computeFingerprint (m : Bytes) :
    (computeFingerprint m).toBitVec = fingerprintBitwise m := by
  rw [computeFingerprint, UInt32.toBitVec_xor, toBitVec_crc32Update]
  rfl

/-- **The table-driven CRC is CRC-32**, over any message and from any value on. It can be taken in
parts, and both functions that make a fingerprint of it make the one of the message. -/
theorem crc32Update_refines (crc : UInt32) (m : Bytes) :
    (crc32Update crc m).toBitVec = crc32Bitwise crc.toBitVec m ∧
    (∀ a b, m = a ++ b → crc32Update crc m = crc32Update (crc32Update crc a) b) ∧
    (FingerprintAttr.compute m).value.toBitVec = fingerprintBitwise m ∧
    (computeFingerprint m).toBitVec = fingerprintBitwise m := by
  refine ⟨toBitVec_crc32Update crc m, ?_, toBitVec_computeFingerprint m,
    toBitVec_computeFingerprint m⟩
  rintro a b rfl
  exact crc32Update_append crc a b

/-! ## Bursts -/

/-- **A fingerprint shows a burst of four bytes**: messages of one length that differ, and differ
only inside four consecutive bytes, have different fingerprints. -/
theorem compute_ne_of_burst {m₁ m₂ : Bytes} (hne : m₁ ≠ m₂) (hlen : m₁.length = m₂.length)
    {k : Nat} (hburst : ∀ i, m₁[i]? ≠ m₂[i]? → k ≤ i ∧ i < k + 4) :
    FingerprintAttr.compute m₁ ≠ FingerprintAttr.compute m₂ := by
  intro heq
  have hvalue : fingerprintBitwise m₁ = fingerprintBitwise m₂ := by
    rw [← toBitVec_computeFingerprint, ← toBitVec_computeFingerprint]
    exact congrArg (fun a : FingerprintAttr => a.value.toBitVec) heq
  have hcrc := (BitVec.xor_left_inj _).1 hvalue
  exact Crc.absorbAll_ne_of_window (p := crcPoly) rfl hne hlen (Nat.le_refl 32) hburst _
    (BitVec.not_inj.1 hcrc)

/-- Two messages that differ in their third byte. -/
theorem compute_ne_of_burst_third :
    FingerprintAttr.compute [1, 2, 3, 4, 5] ≠ FingerprintAttr.compute [1, 2, 7, 4, 5] := by
  refine compute_ne_of_burst (by decide) rfl (k := 2) ?_
  intro i hi
  rcases i with _ | _ | _ | i
  · exact absurd rfl hi
  · exact absurd rfl hi
  · exact ⟨Nat.le_refl 2, by omega⟩
  · exact absurd rfl hi

end Stunxx
