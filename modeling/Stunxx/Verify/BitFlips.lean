import Stunxx.Lib.CrcFlips
import Stunxx.Verify.Tampering
import Mathlib.Tactic.NormNum.Prime

/-!
# Bits that are flipped on the way

The register of CRC-32 returns after `2 ^ 32 - 1` shifts and no sooner (`bitSteps_crcPoly_iff`). So
two messages that differ in two bits have one FINGERPRINT when the distance of these is a multiple
of that number (`FingerprintAttr.compute_eq_iff_distance`). A message with its FINGERPRINT is far
shorter: one with up to two flipped bits, anywhere, does not pass the receiver's check
(`Encoder.flips_detected`).
-/

namespace Stunxx

open Overlay Tlv Machine Digits

/-! ## The period of CRC-32 -/

theorem power_crcPoly : Crc.power crcPoly 32 (2 ^ 32 - 1) = Crc.unit 32 := by decide +kernel

theorem power_crcPoly_ne :
    ∀ q ∈ [3, 5, 17, 257, 65537], Crc.power crcPoly 32 ((2 ^ 32 - 1) / q) ≠ Crc.unit 32 := by
  decide +kernel

theorem prime_dvd_period {q : Nat} (hq : q.Prime) (h : q ∣ 2 ^ 32 - 1) :
    q ∈ [3, 5, 17, 257, 65537] := by
  have hfactors : 2 ^ 32 - 1 = 3 * 5 * 17 * 257 * 65537 := by norm_num
  rw [hfactors, hq.dvd_mul, hq.dvd_mul, hq.dvd_mul, hq.dvd_mul,
    Nat.prime_dvd_prime_iff_eq hq (by norm_num), Nat.prime_dvd_prime_iff_eq hq (by norm_num),
    Nat.prime_dvd_prime_iff_eq hq (by norm_num), Nat.prime_dvd_prime_iff_eq hq (by norm_num),
    Nat.prime_dvd_prime_iff_eq hq (by norm_num)] at h
  simpa only [List.mem_cons, List.not_mem_nil, or_false, or_assoc] using h

/-- The polynomial of CRC-32 is primitive. -/
theorem bitSteps_crcPoly_iff (n : Nat) :
    Crc.bitSteps crcPoly n (Crc.unit 32) = Crc.unit 32 ↔ 2 ^ 32 - 1 ∣ n := by
  have hw : 0 < 32 := by decide
  apply Crc.bitSteps_unit_iff
  · rw [← Crc.power_eq crcPoly hw (by decide : 2 ^ 32 - 1 < 2 ^ 32)]
    exact power_crcPoly
  · intro q hq hdvd
    have hlt : (2 ^ 32 - 1) / q < 2 ^ 32 := (Nat.div_le_self _ q).trans_lt (by decide)
    rw [← Crc.power_eq crcPoly hw hlt]
    exact power_crcPoly_ne q (prime_dvd_period hq hdvd)

/-! ## Two bits -/

namespace FingerprintAttr

/-- **The distance decides**: messages that differ in two bits have one FINGERPRINT exactly when
the distance of these is a multiple of `2 ^ 32 - 1`. -/
theorem compute_eq_iff_distance {m m' : Bytes} (hlen : m.length = m'.length)
    (hflips : Crc.flips m m' = 2) {i j : Nat} (hij : i < j)
    (hi : (Crc.streamBits m)[i]? ≠ (Crc.streamBits m')[i]?)
    (hj : (Crc.streamBits m)[j]? ≠ (Crc.streamBits m')[j]?) :
    compute m = compute m' ↔ 2 ^ 32 - 1 ∣ j - i := by
  rw [← Crc.absorbAll_eq_iff_of_two_flips (p := crcPoly) rfl bitSteps_crcPoly_iff (by decide) hlen
    hflips hij hi hj (~~~0#32), compute_eq_iff, (compute_eq_iff m' _).1 rfl]

/-- The first and the last bit of two bytes. -/
theorem compute_eq_iff_distance_fifteen :
    compute [0x01, 0x80] = compute [0x00, 0x00] ↔ 2 ^ 32 - 1 ∣ 15 - 0 :=
  @compute_eq_iff_distance [0x01, 0x80] [0x00, 0x00] rfl (by decide) 0 15 (by decide) (by decide)
    (by decide)

variable [Platform]

/-- Behind a message and its FINGERPRINT, in the order of the register, every register is the
same. -/
theorem absorbAll_codeword (m : Bytes) :
    Crc.absorbAll crcPoly (~~~0#32) (m ++ (compute m).wireValue.reverse) =
      Crc.bitSteps crcPoly 32 (~~~0x5354554E#32) := by
  have hwire : (compute m).wireValue.reverse = leBytes 4 (compute m).value.toNat := by
    rw [wireValue, valueSize, image_hostToBe32, beBytes, List.reverse_reverse]
  have hvalue : BitVec.ofNat 32 (leValue (leBytes 4 (compute m).value.toNat)) =
      (compute m).value.toBitVec := by
    rw [leValue_leBytes_of_lt (compute m).value.toBitVec.isLt]
    exact BitVec.ofNat_toNat _ _
  have hcancel : ∀ v k : BitVec 32, ~~~(v ^^^ k) ^^^ v = ~~~k := by
    intro v k
    rw [BitVec.not_xor_left.symm, BitVec.xor_comm v, BitVec.xor_assoc, BitVec.xor_self,
      BitVec.xor_zero]
  rw [Crc.absorbAll_append, (compute_eq_iff m _).1 rfl, hwire,
    Crc.absorbAll_eq crcPoly (by rw [length_leBytes]), hvalue, hcancel, length_leBytes]

/-- Messages that are no longer than the period, and differ in two bits at most with their
FINGERPRINT, are equal. -/
theorem eq_of_flips {m m' : Bytes} (hlen : m.length = m'.length)
    (hshort : 8 * (m.length + 4) ≤ 2 ^ 32 - 1)
    (hflips : Crc.flips (m ++ following m) (m' ++ following m') ≤ 2) : m = m' := by
  have hwire : (compute m).wireValue.length = (compute m').wireValue.length := by
    rw [length_wireValue, length_wireValue]
  rw [Crc.flips_append hlen, following, following, Crc.flips_append rfl, Crc.flips_self,
    Nat.zero_add, ← Crc.flips_reverse hwire, ← Crc.flips_append hlen] at hflips
  have hword := Crc.eq_of_flips (p := crcPoly) rfl bitSteps_crcPoly_iff (by decide)
    (by simp [hlen, hwire]) (by simpa [length_wireValue] using hshort) hflips
    ((absorbAll_codeword m).trans (absorbAll_codeword m').symm)
  exact (List.append_inj hword hlen).1

end FingerprintAttr

/-! ## The receiver's check -/

section Checked

variable [Platform] {b b' : Bytes}

/-- The length field bounds a buffer that ends with an attribute. -/
theorem FingerprintChecked.length_le (hb : FingerprintChecked b) : b.length ≤ 65555 := by
  obtain ⟨d, hd, hparse, hheader, hend, -⟩ := hb
  obtain ⟨h, rs, hg, rfl⟩ := Decoder.parse_eq_some_iff.1 hparse
  rw [Decoder.getAttributeHeader_parsed b h rs (StunAttrType.code_ne_zero _)] at hheader
  have hmem := List.mem_of_find?_eq_some hheader
  rw [← hg.attrsRead_eq] at hmem
  have hle := Decoder.header_le_of_framed hg.toFramed hmem
  have hlt := h.msgLength.toNat_lt
  omega

/-- **Messages that pass differ in three bits at least.** -/
theorem FingerprintChecked.eq_of_flips (hb : FingerprintChecked b) (hb' : FingerprintChecked b')
    (hlen : b.length = b'.length) (hflips : Crc.flips b b' ≤ 2) : b = b' := by
  have hshort := hb.length_le
  obtain ⟨front, rfl⟩ := hb.exists_front
  obtain ⟨front', rfl⟩ := hb'.exists_front
  rw [List.length_append, List.length_append, FingerprintAttr.length_following,
    FingerprintAttr.length_following, Nat.add_right_cancel_iff] at hlen
  rw [List.length_append, FingerprintAttr.length_following] at hshort
  rw [FingerprintAttr.eq_of_flips hlen (by omega) hflips]

end Checked

/-! ## The sender's message -/

namespace Encoder

/-- **Two flipped bits on the way are noticed**: a message whose last call is `addFingerprint`
passes the receiver's check, and other bytes of its length that differ from it in at most two bits
do not, wherever these are. -/
theorem flips_detected [Platform] (type : UInt16) (tid : TransactionId) (buffer : Bytes)
    {calls : List AddCall} (hok : ∀ r ∈ (run add (new type tid buffer) calls).1, r.ok = true)
    (hlast : calls.getLast? = some .fingerprint)
    (hbound : (run add (new type tid buffer) calls).2.totalSize - 20 ≤ 65535) :
    let m := (run add (new type tid buffer) calls).2.message
    FingerprintChecked m ∧
      ∀ received : Bytes, received ≠ m → received.length = m.length →
        Crc.flips received m ≤ 2 → ¬FingerprintChecked received := by
  intro m
  have hpass : FingerprintChecked m :=
    fingerprintChecked_run type tid buffer hok hlast hbound
  refine ⟨hpass, ?_⟩
  intro received hne hlen hflips hreceived
  exact hne (hreceived.eq_of_flips hpass hlen hflips)

/-! A PRIORITY and a FINGERPRINT, and two bits that are flipped, one in each. -/

local instance flipsHost : Platform := .ofDigest []

theorem flips_detected_priority :
    let calls : List AddCall := [.ordinary ⟨.priority, rfl, ⟨7⟩⟩, .fingerprint]
    let m := (run add (new 0x0001 (ByteArrayN.zero 12) (List.replicate 40 0)) calls).2.message
    FingerprintChecked m ∧
      ¬FingerprintChecked ((m.set 27 6).set 32 (m.getD 32 0 ^^^ 0x80)) := by
  intro calls m
  obtain ⟨hpass, hflips⟩ := flips_detected 0x0001 (ByteArrayN.zero 12) (List.replicate 40 0)
    (by decide +kernel) (rfl : calls.getLast? = some .fingerprint) (by decide +kernel)
  refine ⟨hpass, hflips _ (by decide +kernel) ?_ (by decide +kernel)⟩
  rw [List.length_set, List.length_set]

end Encoder

end Stunxx
