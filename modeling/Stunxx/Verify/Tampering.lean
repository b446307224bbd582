import Stunxx.Verify.Checksum
import Stunxx.Verify.Hosts
import Stunxx.Verify.RoundTrip
import Stunxx.Verify.Reading

/-!
# What a FINGERPRINT shows

A receiver that finds the FINGERPRINT at the end of a message compares it with the one of the bytes
in front (`FingerprintChecked`). Different messages of one length that pass differ on more than four
consecutive bytes (`FingerprintChecked.eq_of_burst`), so a short burst on the way is noticed
(`Encoder.burst_detected`). It is no signature: whatever the other bytes are, four consecutive ones
can be chosen to give any FINGERPRINT, in one way (`FingerprintAttr.existsUnique_forgery`).
-/

namespace Stunxx

open Overlay Tlv Machine Digits

/-! ## Four bytes -/

namespace FingerprintAttr

/-- A fingerprint is the register behind the message, complemented and masked. -/
theorem compute_eq_iff (m : Bytes) (a : FingerprintAttr) :
    compute m = a ↔
      Crc.absorbAll crcPoly (~~~0#32) m = ~~~(a.value.toBitVec ^^^ 0x5354554E#32) := by
  have hvalue : (compute m).value.toBitVec = fingerprintBitwise m := toBitVec_computeFingerprint m
  have hext : compute m = a ↔ fingerprintBitwise m = a.value.toBitVec := by
    rw [← hvalue, UInt32.toBitVec_inj]
    exact ⟨congrArg value, fun h => congrArg FingerprintAttr.mk h⟩
  rw [hext, fingerprintBitwise, crc32Bitwise]
  constructor
  · intro h
    rw [← h, BitVec.xor_assoc, BitVec.xor_self, BitVec.xor_zero, BitVec.not_not]
    rfl
  · intro h
    have hzero : ~~~(0 : BitVec 32) = ~~~0#32 := rfl
    rw [hzero, h, BitVec.not_not, BitVec.xor_assoc, BitVec.xor_self, BitVec.xor_zero]

/-- **Four bytes decide**: between any bytes in front and behind, there is exactly one choice of
four bytes that gives the message a wanted FINGERPRINT. -/
theorem existsUnique_forgery (front behind : Bytes) (a : FingerprintAttr) :
    ∃! window : Bytes, window.length = 4 ∧ compute (front ++ window ++ behind) = a := by
  have hwindow := Crc.existsUnique_window (p := crcPoly) rfl (n := 4) rfl
    (Crc.absorbAll crcPoly (~~~0#32) front) (~~~(a.value.toBitVec ^^^ 0x5354554E#32)) behind
  simp only [compute_eq_iff, List.append_assoc, Crc.absorbAll_append] at hwindow ⊢
  exact hwindow

/-- Messages with one fingerprint that differ in a window of four bytes at most are equal. -/
theorem eq_of_window {m m' : Bytes} (h : compute m = compute m') (hlen : m.length = m'.length)
    {k : Nat} (hwindow : ∀ i, m[i]? ≠ m'[i]? → k ≤ i ∧ i < k + 4) : m = m' := by
  by_contra hne
  have hcrc := ((compute_eq_iff m _).1 h).trans ((compute_eq_iff m' _).1 rfl).symm
  exact Crc.absorbAll_ne_of_window (p := crcPoly) rfl hne hlen (n := 4) (Nat.le_refl 32) hwindow _
    hcrc

variable [Platform]

/-- Only its own bytes are read as a FINGERPRINT. -/
theorem wireValue_of_decode {bs : Bytes} {a : FingerprintAttr} (h : decode bs = some a) :
    bs = a.wireValue := by
  have hlen := length_of_decode h
  simp only [decode_eq, valueSize, hlen, ne_eq, not_true_eq_false, if_false, Option.some.injEq] at h
  have hlt : beValue bs < 2 ^ 32 := by
    have hpow := leValue_lt bs.reverse
    rw [List.length_reverse, hlen] at hpow
    exact hpow
  rw [← h, wireValue, valueSize, image_hostToBe32, UInt32.toNat_ofNat', Nat.mod_eq_of_lt hlt,
    ← hlen, beBytes_beValue]

/-- The FINGERPRINT that follows the bytes `front` in a message. -/
def following (front : Bytes) : Bytes :=
  writeHeader StunAttrType.fingerprint.code 4 ++ (compute front).wireValue

theorem length_following (front : Bytes) : (following front).length = 8 := by
  rw [following, List.length_append, length_wireValue]
  rfl

end FingerprintAttr

/-! ## The receiver's check -/

/-- The head and the value of an attribute, where its header says they are. -/
theorem Grammar.slice_header {buffer : Bytes} {h : StunHeader} {rs : List WireAttr}
    (hg : Grammar buffer h rs) {hd : AttrHeader} (hmem : hd ∈ wireHeaders 20 rs) :
    24 ≤ hd.offset ∧ slice buffer (hd.offset - 4) 4 = writeHeader hd.type hd.len := by
  obtain ⟨p, hp, rfl⟩ := List.mem_map.1 hmem
  obtain ⟨pre, r, behind, rfl, rfl⟩ := exists_split_of_mem_layout stunFormat hp
  obtain ⟨hfull, -, rest, hbytes, -⟩ := hg.tiling.exists_split
  have hattrs := hg.length_attrBytes
  have hroom := hg.room
  have hpre := length_flatMap_wire stunFormat hfull
  have hhead : (writeHeader r.tag (UInt16.ofNat r.value.length)).length = 4 := rfl
  refine ⟨by simp only [AttrHeader.ofPlace, headSize_stunFormat]; omega, ?_⟩
  have hin : (pre.map (stride stunFormat)).sum + 4 ≤ h.msgLength.toNat := by
    have hle := hg.tiling.sum_stride_le
    rw [hattrs, headSize_stunFormat] at hle
    omega
  have hplace : slice buffer (20 + (pre.map (stride stunFormat)).sum) 4 =
      slice (attrBytes buffer h) (pre.map (stride stunFormat)).sum 4 :=
    (slice_slice buffer hin).symm
  have hoff : (AttrHeader.ofPlace ⟨r.tag, r.value.length,
      20 + (pre.map (stride stunFormat)).sum + stunFormat.headSize⟩).offset - 4 =
        20 + (pre.map (stride stunFormat)).sum := Nat.add_sub_cancel _ 4
  rw [hoff, hplace, hbytes, ← hpre, slice, List.drop_left' rfl, wire]
  simp only [List.append_assoc]
  exact List.take_left' hhead

/-- A code other than zero is looked up among the headers on the wire. -/
theorem Decoder.getAttributeHeader_parsed (buffer : Bytes) (h : StunHeader) (rs : List WireAttr)
    {t : UInt16} (ht : t ≠ 0) :
    (parsed buffer h rs).getAttributeHeader t =
      (wireHeaders 20 rs).find? fun hd => hd.type == t := by
  rw [getAttributeHeader, AttributeTable.get_eq_head, parsed, AttributeTable.range_append_new,
    if_neg ht, List.nil_append, List.head?_filter]

/-- The first attribute of a type, where a lookup by type finds it. -/
theorem find?_wireHeaders {front behind : List WireAttr} {r : WireAttr} {t : UInt16}
    (hfront : ∀ q ∈ front, q.tag ≠ t) (hr : r.tag = t) (off : Nat) :
    (wireHeaders off (front ++ r :: behind)).find? (fun hd => hd.type == t) =
      some ⟨t, UInt16.ofNat r.value.length, off + (front.map (stride stunFormat)).sum + 4⟩ := by
  have hnone : (wireHeaders off front).find? (fun hd => hd.type == t) = none := by
    rw [List.find?_eq_none]
    intro hd hmem htag
    obtain ⟨p, hp, rfl⟩ := List.mem_map.1 hmem
    obtain ⟨q, hq, hqtag, -⟩ := exists_of_mem_layout stunFormat hp
    exact hfront q hq (hqtag.symm.trans (beq_iff_eq.1 htag))
  rw [wireHeaders, layout_append, List.map_append, List.find?_append, ← wireHeaders, hnone,
    Option.none_or]
  simp [layout, AttrHeader.ofPlace, hr]

/-- What a receiver can check of a FINGERPRINT: it is the last attribute of the buffer, and it is
the one of the bytes in front of it. -/
def FingerprintChecked [Platform] (buffer : Bytes) : Prop :=
  ∃ d hd, Decoder.parse buffer = .ok (some d) ∧
    d.getAttributeHeader StunAttrType.fingerprint.code = some hd ∧
    hd.offset + hd.len.toNat = buffer.length ∧
    d.getAttribute FingerprintAttr = some (FingerprintAttr.compute (buffer.take (hd.offset - 4)))

section Checked

variable [Platform] {b b' : Bytes}

/-- A buffer that passes is some bytes and the FINGERPRINT that follows them. -/
theorem FingerprintChecked.exists_front (hb : FingerprintChecked b) :
    ∃ front, b = front ++ FingerprintAttr.following front := by
  obtain ⟨d, hd, hparse, hheader, hend, hvalue⟩ := hb
  obtain ⟨h, rs, hg, rfl⟩ := Decoder.parse_eq_some_iff.1 hparse
  have hf := hg.toFramed
  have hrange := Decoder.range_parsed FingerprintAttr hg
  have hfirst := Decoder.getAttribute_of_range FingerprintAttr (Decoder.buffer_ne_empty hf) hrange
    (Decoder.headersOf_le FingerprintAttr hf)
  have hhead : (Decoder.headersOf FingerprintAttr b h).head? = some hd := by
    rw [← hrange, ← AttributeTable.get_eq_head]
    exact hheader
  rw [hfirst, hhead, Option.bind_some] at hvalue
  have hdec : FingerprintAttr.decode (slice b hd.offset hd.len.toNat) = some _ := hvalue
  have hlen := FingerprintAttr.length_of_decode hdec
  rw [length_slice_of_le (Nat.le_of_eq hend)] at hlen
  have hmem := List.mem_of_head? hhead
  rw [Decoder.headersOf, hg.attrsRead_eq, List.mem_filter, beq_iff_eq] at hmem
  obtain ⟨hoff, hslice⟩ := hg.slice_header hmem.1
  have hlen4 : hd.len = 4 := UInt16.toNat_inj.1 hlen
  refine ⟨b.take (hd.offset - 4), ?_⟩
  rw [FingerprintAttr.following, ← FingerprintAttr.wireValue_of_decode hdec, ← hlen4]
  have htype : StunAttrType.fingerprint.code = hd.type := hmem.2.symm
  rw [htype, ← hslice]
  have hjoin : slice b (hd.offset - 4) 4 ++ slice b hd.offset hd.len.toNat =
      b.drop (hd.offset - 4) := by
    have hsum := slice_add b (hd.offset - 4) 4 hd.len.toNat
    rw [Nat.sub_add_cancel (by omega)] at hsum
    rw [← hsum, slice]
    exact List.take_of_length_le (by rw [List.length_drop]; omega)
  rw [hjoin, List.take_append_drop]

/-- **Messages that pass are far apart**: two of one length that differ inside four consecutive
bytes at most are equal. -/
theorem FingerprintChecked.eq_of_burst (hb : FingerprintChecked b) (hb' : FingerprintChecked b')
    (hlen : b.length = b'.length) {k : Nat} (hburst : ∀ i, b[i]? ≠ b'[i]? → k ≤ i ∧ i < k + 4) :
    b = b' := by
  obtain ⟨front, rfl⟩ := hb.exists_front
  obtain ⟨front', rfl⟩ := hb'.exists_front
  have hfront : front.length = front'.length := by
    simpa [FingerprintAttr.length_following] using hlen
  have hdiff : ∀ i, i < front.length → front[i]? ≠ front'[i]? → k ≤ i ∧ i < k + 4 := by
    intro i hi hne
    apply hburst i
    rwa [List.getElem?_append_left hi, List.getElem?_append_left (hfront ▸ hi)]
  by_cases hsame : FingerprintAttr.compute front = FingerprintAttr.compute front'
  · have heq : front = front' := by
      refine FingerprintAttr.eq_of_window hsame hfront fun i hne => hdiff i ?_ hne
      by_contra hi
      rw [List.getElem?_eq_none (Nat.le_of_not_lt hi),
        List.getElem?_eq_none (hfront ▸ Nat.le_of_not_lt hi)] at hne
      exact hne rfl
    rw [heq]
  -- the fingerprints differ, and a place in front of them too: these are more than four bytes apart
  · exfalso
    have hne : front ≠ front' := fun h => hsame (congrArg _ h)
    have hvalue : (FingerprintAttr.compute front).wireValue ≠
        (FingerprintAttr.compute front').wireValue := by
      intro h
      have hdec := congrArg FingerprintAttr.decode h
      rw [FingerprintAttr.decode_wireValue, FingerprintAttr.decode_wireValue] at hdec
      exact hsame (Option.some.inj hdec)
    obtain ⟨i, hi⟩ := not_forall.1 fun h => hne (List.ext_getElem? h)
    obtain ⟨j, hj⟩ := not_forall.1 fun h => hvalue (List.ext_getElem? h)
    have hilt : i < front.length := by
      by_contra hge
      rw [List.getElem?_eq_none (Nat.le_of_not_lt hge),
        List.getElem?_eq_none (hfront ▸ Nat.le_of_not_lt hge)] at hi
      exact hi rfl
    have hnear := hdiff i hilt hi
    have hfar := hburst (front.length + (4 + j)) <| by
      have hread : ∀ f : Bytes, (f ++ FingerprintAttr.following f)[f.length + (4 + j)]? =
          (FingerprintAttr.compute f).wireValue[j]? := by
        intro f
        rw [List.getElem?_append_right (Nat.le_add_right _ _), Nat.add_sub_cancel_left,
          FingerprintAttr.following, List.getElem?_append_right (Nat.le_add_right 4 j)]
        exact congrArg (fun n => (FingerprintAttr.compute f).wireValue[n]?)
          (Nat.add_sub_cancel_left 4 j)
      have hread' := hread front'
      rw [← hfront] at hread'
      rw [hread front, hread']
      exact hj
    omega

/-- A message that ends with the one FINGERPRINT of the bytes in front of it passes. -/
theorem fingerprintChecked_of_grammar {h : StunHeader} {rs : List WireAttr} {a : FingerprintAttr}
    (hg : Grammar b h (rs ++ [⟨StunAttrType.fingerprint.code, a.wireValue, []⟩]))
    (hfirst : ∀ q ∈ rs, q.tag ≠ StunAttrType.fingerprint.code)
    (hlen : b.length = 20 + (rs.map (stride stunFormat)).sum + 8)
    (ha : FingerprintAttr.compute (b.take (20 + (rs.map (stride stunFormat)).sum)) = a) :
    FingerprintChecked b := by
  refine ⟨_, ⟨StunAttrType.fingerprint.code, 4, 20 + (rs.map (stride stunFormat)).sum + 4⟩,
    Decoder.parse_eq_some_iff.2 ⟨_, _, hg, rfl⟩, ?_, hlen.symm, ?_⟩
  case refine_1 =>
    rw [Decoder.getAttributeHeader_parsed b h _ (StunAttrType.code_ne_zero _),
      find?_wireHeaders hfirst rfl, FingerprintAttr.length_wireValue]
    rfl
  case refine_2 =>
    have hnone : rs.find? (fun r => r.tag == StunAttrType.fingerprint.code) = none := by
      rw [List.find?_eq_none]
      intro q hq htag
      exact hfirst q hq (beq_iff_eq.1 htag)
    have htype : (StunAttribute.type FingerprintAttr).code = StunAttrType.fingerprint.code := rfl
    rw [Decoder.getAttribute_parsed FingerprintAttr hg, htype, List.find?_append, hnone,
      Option.none_or, Nat.add_sub_cancel, ha, List.find?_singleton, beq_self_eq_true, if_pos rfl]
    exact a.decode_wireValue

end Checked

/-! ## The sender's message -/

namespace Encoder

section Stamped

variable [Platform]

/-- A FINGERPRINT that was added stays the only one. -/
theorem hasFingerprint_add {e : Encoder} (h : e.hasFingerprint = true) (c : AddCall) :
    (e.add c).2.hasFingerprint = true := by
  have hout := add_outcome e c
  generalize (e.add c).1 = r, (e.add c).2 = f at hout ⊢
  cases hout with
  | fingerprint => rfl
  | _ => exact h

theorem fingerprint_not_mem {e : Encoder} {calls : List AddCall}
    (hok : ∀ r ∈ (run add e (calls ++ [.fingerprint])).1, r.ok = true) :
    AddCall.fingerprint ∉ calls := by
  intro hmem
  obtain ⟨front, behind, rfl⟩ := List.append_of_mem hmem
  simp only [List.append_assoc, List.cons_append, run_append, run_cons, run_nil, List.mem_append,
    List.mem_cons, List.not_mem_nil, or_false] at hok
  generalize (run add e front).2 = f at hok
  have hfirst := hok _ (.inr (.inl rfl))
  have hlast := hok _ (.inr (.inr (.inr rfl)))
  have hset : (f.add .fingerprint).2.hasFingerprint = true := by
    have hout := add_outcome f .fingerprint
    generalize (f.add .fingerprint).1 = r, (f.add .fingerprint).2 = g at hout hfirst ⊢
    cases hout with
    | refused => cases hfirst
    | fingerprint => rfl
  have hkept := @run_invariant _ _ _ add (fun g => g.hasFingerprint = true) behind
    (fun g c _ hg => hasFingerprint_add hg c) _ hset
  generalize (run add (f.add .fingerprint).2 behind).2 = g at hkept hlast
  rw [add, addFingerprint, if_pos hkept] at hlast
  cases hlast

/-- A message that ends with its FINGERPRINT passes the receiver's check. -/
theorem fingerprintChecked_of_sent {type : UInt16} {tid : TransactionId} {size : Nat}
    {hist : List (AddCall × AddResult)} {x : AddCall × AddResult} {e : Encoder}
    (h : Sent type tid size (hist ++ [x]) e) (hsize : 20 ≤ size) (hbound : e.offset - 20 ≤ 65535)
    (hx : x.1 = .fingerprint) (hfront : AddCall.fingerprint ∉ hist.map Prod.fst) :
    FingerprintChecked e.message := by
  obtain ⟨rs, hrs, hbytes⟩ := h.records hbound
  have hends : EndsSealed (hist ++ [x]) := endsSealed_concat.2 (by rw [hx]; rfl)
  have hg := h.grammar hsize hbound (.inr hends) hrs hbytes
  have hsum := h.sum_stride hsize hrs hbytes
  obtain ⟨rs, r, rfl, hfrontRs, hr⟩ := carries_concat hrs
  obtain rfl := h.fingerprint_record hx hr hbytes
  have htotal : e.finalize.buffer.bytes.take e.offset = e.message := by
    rw [message, finalize_totalSize]
  rw [htotal] at hg
  rw [List.map_append, List.sum_append, List.map_singleton, List.sum_singleton, stride_stunFormat,
    FingerprintAttr.length_wireValue] at hsum
  have hoff : 20 + (rs.map (stride stunFormat)).sum + 8 = e.offset := hsum
  have hnone : ∀ q ∈ rs, q.tag ≠ StunAttrType.fingerprint.code := by
    intro q hq htag
    obtain ⟨y, hy, hcarries⟩ := exists_carries hfrontRs q hq
    have hfp := eq_fingerprint_of_type (StunAttrType.code_inj (hcarries.tag.symm.trans htag))
    exact hfront (hfp ▸ List.mem_map_of_mem hy)
  refine fingerprintChecked_of_grammar hg hnone ?_ ?_
  · rw [h.toInv.length_message hsize]
    exact hoff.symm
  · rw [message, finalize_totalSize, List.take_take, ← hoff, Nat.add_sub_cancel,
      Nat.min_eq_left (Nat.le_add_right _ 8)]

/-- A message whose last call is `addFingerprint` passes. -/
theorem fingerprintChecked_run (type : UInt16) (tid : TransactionId) (buffer : Bytes)
    {calls : List AddCall} (hok : ∀ r ∈ (run add (new type tid buffer) calls).1, r.ok = true)
    (hlast : calls.getLast? = some .fingerprint)
    (hbound : (run add (new type tid buffer) calls).2.totalSize - 20 ≤ 65535) :
    FingerprintChecked (run add (new type tid buffer) calls).2.message := by
  obtain ⟨front, rfl⟩ := List.getLast?_eq_some_iff.1 hlast
  have hsent := sent_run type tid buffer hok
  have hnot := fingerprint_not_mem hok
  have hmap := map_fst_history add (new type tid buffer) (front ++ [.fingerprint])
  obtain ⟨hist, last, heq, rfl, hsingle⟩ := List.map_eq_append_iff.1 hmap
  obtain ⟨x, rfl, hx⟩ := List.map_eq_singleton_iff.1 hsingle
  rw [heq] at hsent
  have hsealed := hsent.sealed_iff.2 ⟨x, by simp, by rw [hx]; rfl⟩
  exact fingerprintChecked_of_sent hsent (hsent.toInv.le_size hsealed) hbound hx hnot

/-- **A short burst on the way is noticed**: a message whose last call is `addFingerprint` passes
the receiver's check, and other bytes of its length that differ from it inside four consecutive
bytes do not, wherever these are. -/
theorem burst_detected (type : UInt16) (tid : TransactionId) (buffer : Bytes)
    {calls : List AddCall} (hok : ∀ r ∈ (run add (new type tid buffer) calls).1, r.ok = true)
    (hlast : calls.getLast? = some .fingerprint)
    (hbound : (run add (new type tid buffer) calls).2.totalSize - 20 ≤ 65535) :
    let m := (run add (new type tid buffer) calls).2.message
    FingerprintChecked m ∧
      ∀ received : Bytes, received ≠ m → received.length = m.length →
        (∃ k, ∀ i, received[i]? ≠ m[i]? → k ≤ i ∧ i < k + 4) → ¬FingerprintChecked received := by
  intro m
  have hpass : FingerprintChecked m := fingerprintChecked_run type tid buffer hok hlast hbound
  refine ⟨hpass, ?_⟩
  rintro received hne hlen ⟨k, hburst⟩ hreceived
  exact hne (hreceived.eq_of_burst hpass hlen hburst)

end Stamped

/-! A PRIORITY and a FINGERPRINT, and a bit that is lost in the PRIORITY. -/

local instance tamperingHost : Platform := .ofDigest []

theorem burst_detected_priority :
    let calls : List AddCall := [.ordinary ⟨.priority, rfl, ⟨7⟩⟩, .fingerprint]
    let m := (run add (new 0x0001 (ByteArrayN.zero 12) (List.replicate 40 0)) calls).2.message
    FingerprintChecked m ∧ ¬FingerprintChecked (m.set 27 6) := by
  intro calls m
  obtain ⟨hpass, hburst⟩ := burst_detected 0x0001 (ByteArrayN.zero 12) (List.replicate 40 0)
    (by decide +kernel) (rfl : calls.getLast? = some .fingerprint) (by decide +kernel)
  refine ⟨hpass, hburst _ (by decide +kernel) List.length_set ⟨27, ?_⟩⟩
  intro i hi
  by_contra hout
  rw [List.getElem?_set_ne (by omega)] at hi
  exact hi rfl

end Encoder

end Stunxx
