import Stunxx.Verify.Lookup
import Stunxx.Verify.Sent

/-!
# The length and the fingerprint of a finished message

Two things a finished message should say about itself: how long it is, and the CRC of what is in
front of its FINGERPRINT. Both hold exactly when no call follows the one that wrote them:
`finalize` does not write the length once a seal did, and nothing stops an add behind the
FINGERPRINT.
-/

namespace Stunxx

open Overlay Machine Tlv Digits

/-- The headers of the attributes that calls add from `off` on. -/
def acceptedHeaders [Platform] (off : Nat) : List AddCall → List AttrHeader
  | [] => []
  | c :: cs =>
    { type := c.type.code, len := UInt16.ofNat c.length, offset := off + attrHeaderSize } ::
      acceptedHeaders (off + (attrHeaderSize + roundUp4 c.length)) cs

section Finished

variable [Platform]

theorem wireHeaders_eq {hist : List (AddCall × AddResult)} {rs : List WireAttr}
    (hrs : List.Forall₂ Carries hist rs) (off : Nat) :
    wireHeaders off rs = acceptedHeaders off (hist.map Prod.fst) := by
  induction hrs generalizing off with
  | nil => rfl
  | @cons x r hist rs hx _ ih =>
    have hstride : stride stunFormat r = attrHeaderSize + roundUp4 x.1.length := by
      rw [stride_stunFormat, hx.length]
    have htail := ih (off + stride stunFormat r)
    rw [hstride] at htail
    rw [List.map_cons, acceptedHeaders, ← htail, wireHeaders, layout, List.map_cons, hstride,
      AttrHeader.ofPlace, hx.tag, hx.length]
    rfl

/-! ## The length -/

section

variable {type : UInt16} {tid : TransactionId} {size : Nat}
  {hist : List (AddCall × AddResult)} {e : Encoder}

theorem Sent.length_iff (h : Sent type tid size hist e) (hsize : 20 ≤ size)
    (hbound : e.offset - 20 ≤ 65535) :
    (slice e.finalize.buffer.bytes 2 2 = beBytes 2 (e.offset - 20) ∧
      ∃ d, Decoder.parse (e.finalize.buffer.bytes.take e.offset) = .ok (some d) ∧
        d.attributes.attributes =
          AttributeTable.new.attributes ++ acceptedHeaders 20 (hist.map Prod.fst)) ↔
      SealsLast (hist.map Prod.fst) := by
  have hoff := h.le_offset
  rw [h.sealsLast_iff]
  constructor
  · rintro ⟨hlength, -⟩
    by_contra hlast
    obtain ⟨hsealed, hends⟩ := not_or.1 hlast
    exact h.finalize_stale hbound (not_not.1 hsealed) hends hlength
  · intro hlast
    obtain ⟨rs, hrs, hbytes⟩ := h.records hbound
    have hg := h.grammar hsize hbound hlast hrs hbytes
    refine ⟨?_, _, Decoder.parse_eq_some_iff.2 ⟨_, rs, hg, rfl⟩, ?_⟩
    · rw [(slice_header (h.finalize_header hsize hlast)).1, writeBe16_ofNat]
    · rw [← wireHeaders_eq hrs]
      rfl

/-! ## The fingerprint -/

/-- The record of a FINGERPRINT is a value of four bytes, with no padding. -/
theorem Carries.fingerprint_shape {x : AddCall × AddResult} {r : WireAttr} (hr : Carries x r)
    (hx : x.1 = .fingerprint) :
    r.tag = StunAttrType.fingerprint.code ∧ r.value.length = 4 ∧ r.padding = [] := by
  have htag := hr.tag
  rw [hx] at htag
  have hlen : r.value.length = 4 := by
    rw [hr.length, hx]
    rfl
  refine ⟨htag, hlen, ?_⟩
  rw [← List.length_eq_zero_iff, hr.full.padding_eq, hlen]
  rfl

/-- The record of a FINGERPRINT that was added last. -/
theorem Sent.fingerprint_record {x : AddCall × AddResult} (h : Sent type tid size (hist ++ [x]) e)
    (hx : x.1 = .fingerprint) {rs : List WireAttr} {r : WireAttr} (hr : Carries x r)
    (hbytes : slice e.finalize.buffer.bytes 20 (e.offset - 20) =
      (rs ++ [r]).flatMap (wire stunFormat)) :
    r = ⟨StunAttrType.fingerprint.code,
      (FingerprintAttr.compute (e.finalize.buffer.bytes.take (e.offset - 8))).wireValue, []⟩ := by
  have hsealed : e.Sealed :=
    h.sealed_iff.2 ⟨x, List.mem_append_right _ (List.mem_singleton_self x), by rw [hx]; rfl⟩
  have hcrc := h.crc x List.getLast?_concat hx
  obtain ⟨htag, hvlen, hpad⟩ := hr.fingerprint_shape hx
  have hwire : (wire stunFormat r).length = 8 := by
    rw [hr.full.length_wire, stride_stunFormat, hvlen]
    rfl
  have hin := h.length_eq
  have hle := h.offset_le
  have hoff := h.le_offset
  have hsize := h.le_size hsealed
  rw [Encoder.finalize_of_sealed hsealed, List.flatMap_append, List.flatMap_singleton] at hbytes
  rw [Encoder.finalize_of_sealed hsealed]
  have hlen := congrArg List.length hbytes
  rw [List.length_append, hwire, length_slice_of_le (by omega)] at hlen
  have hvalue : slice e.buffer.bytes (e.offset - 4) 4 = r.value := by
    have hread := slice_append_wire_value stunFormat (rs.flatMap (wire stunFormat)) r
    have hplace : e.offset - 4 = 20 + ((rs.flatMap (wire stunFormat)).length + 4) := by omega
    rw [hplace]
    rwa [hvlen, ← hbytes, slice_slice _ (by rw [headSize_stunFormat]; omega)] at hread
  obtain ⟨tag, value, pad⟩ := r
  obtain rfl : pad = [] := hpad
  obtain rfl : tag = StunAttrType.fingerprint.code := htag
  exact congrArg (fun v => Record.mk _ v []) (hvalue.symm.trans hcrc)

/-- Only `addFingerprint` adds an attribute of the FINGERPRINT's type. -/
theorem eq_fingerprint_of_type {c : AddCall} (h : c.type = .fingerprint) : c = .fingerprint := by
  cases c with
  | ordinary a =>
    have hcls : a.cls = .fingerprint := AttrClass.type_inj h
    have hord := a.ordinary
    rw [hcls] at hord
    cases hord
  | integrity kind a => cases kind <;> cases h
  | fingerprint => rfl

/-- The message of `total` bytes ends in a FINGERPRINT with the CRC of what is in front of it. -/
def FingerprintLast (buffer : Bytes) (total : Nat) : Prop :=
  ∃ rs value, Tiling stunFormat (slice buffer 20 (total - 20))
      (rs ++ [⟨StunAttrType.fingerprint.code, value, []⟩]) ∧
    FingerprintAttr.decode value = some (FingerprintAttr.compute (buffer.take (total - 8)))

theorem Sent.fingerprint_iff (h : Sent type tid size hist e) (hbound : e.offset - 20 ≤ 65535) :
    FingerprintLast e.finalize.buffer.bytes e.offset ↔
      (hist.map Prod.fst).getLast? = some .fingerprint := by
  obtain ⟨rs, hrs, hbytes⟩ := h.records hbound
  have htiling := tiling_flatMap stunFormat (full_of_carries hrs)
  rw [← hbytes] at htiling
  constructor
  · rintro ⟨qs, value, hqs, -⟩
    obtain rfl := htiling.unique stunFormat hqs
    rcases List.eq_nil_or_concat' hist with rfl | ⟨front, x, rfl⟩
    · cases hrs.length_eq.trans List.length_append
    · obtain ⟨rs', r, heq, -, hr⟩ := carries_concat hrs
      obtain ⟨-, hlast⟩ := List.append_inj' heq rfl
      obtain rfl := List.singleton_inj.1 hlast
      rw [List.map_append, List.map_singleton, List.getLast?_concat]
      exact congrArg some (eq_fingerprint_of_type (StunAttrType.code_inj hr.tag.symm))
  · intro hlast
    rw [List.getLast?_map, Option.map_eq_some_iff] at hlast
    obtain ⟨x, hx, hfp⟩ := hlast
    obtain ⟨front, rfl⟩ := List.getLast?_eq_some_iff.1 hx
    obtain ⟨rs', r, rfl, -, hr⟩ := carries_concat hrs
    obtain rfl := h.fingerprint_record hfp hr hbytes
    exact ⟨rs', _, htiling, FingerprintAttr.decode_wireValue _⟩

end

namespace Encoder

/-- **The length in the header** of a finished message is right, and a decoder finds every
attribute that was accepted, exactly when the last call seals the message or none does. -/
theorem header_length_iff (type : UInt16) (tid : TransactionId) (buffer : Bytes)
    (hbuffer : 20 ≤ buffer.length) (calls : List AddCall)
    (hok : ∀ r ∈ (run add (new type tid buffer) calls).1, r.ok = true)
    (hbound : (run add (new type tid buffer) calls).2.finalize.totalSize - 20 ≤ 65535) :
    let e := (run add (new type tid buffer) calls).2.finalize
    (slice e.buffer.bytes 2 2 = beBytes 2 (e.totalSize - 20) ∧
      ∃ d, Decoder.parse (e.buffer.bytes.take e.totalSize) = .ok (some d) ∧
        d.attributes.attributes = AttributeTable.new.attributes ++ acceptedHeaders 20 calls) ↔
      SealsLast calls := by
  have hsent := sent_run type tid buffer hok
  rw [finalize_totalSize] at hbound
  have hiff := hsent.length_iff hbuffer hbound
  rw [map_fst_history] at hiff
  simp only [finalize_totalSize]
  exact hiff

/-- **The FINGERPRINT is last and valid** exactly when `addFingerprint` was the last call. -/
theorem fingerprint_last_iff (type : UInt16) (tid : TransactionId) (buffer : Bytes)
    (calls : List AddCall) (hok : ∀ r ∈ (run add (new type tid buffer) calls).1, r.ok = true)
    (hbound : (run add (new type tid buffer) calls).2.finalize.totalSize - 20 ≤ 65535) :
    let e := (run add (new type tid buffer) calls).2.finalize
    FingerprintLast e.buffer.bytes e.totalSize ↔ calls.getLast? = some .fingerprint := by
  have hsent := sent_run type tid buffer hok
  rw [finalize_totalSize] at hbound
  have hiff := hsent.fingerprint_iff hbound
  rw [map_fst_history] at hiff
  simp only [finalize_totalSize]
  exact hiff

end Encoder

end Finished

namespace Encoder

/-! ## A PRIORITY before and after the FINGERPRINT -/

section Priority

/-- A host for messages that nobody signs. -/
local instance unsignedHost : Platform := .ofDigest []

theorem header_length_iff_stamped :
    let calls : List AddCall := [.ordinary ⟨.priority, rfl, ⟨7⟩⟩, .fingerprint]
    let e := (run add (new 0x0001 (ByteArrayN.zero 12) (List.replicate 64 0)) calls).2.finalize
    (slice e.buffer.bytes 2 2 = beBytes 2 (e.totalSize - 20) ∧
      ∃ d, Decoder.parse (e.buffer.bytes.take e.totalSize) = .ok (some d) ∧
        d.attributes.attributes = AttributeTable.new.attributes ++ acceptedHeaders 20 calls) ↔
      SealsLast calls :=
  header_length_iff 0x0001 (ByteArrayN.zero 12) (List.replicate 64 0) (by decide)
    [.ordinary ⟨.priority, rfl, ⟨7⟩⟩, .fingerprint] (by decide +kernel) (by decide +kernel)

/-- A PRIORITY behind the FINGERPRINT is accepted and not counted. -/
theorem header_length_stale :
    let calls : List AddCall := [.fingerprint, .ordinary ⟨.priority, rfl, ⟨7⟩⟩]
    let out := run add (new 0x0001 (ByteArrayN.zero 12) (List.replicate 64 0)) calls
    (∀ r ∈ out.1, r.ok = true) ∧ out.2.finalize.totalSize - 20 ≤ 65535 ∧
      slice out.2.finalize.buffer.bytes 2 2 ≠ beBytes 2 (out.2.finalize.totalSize - 20) := by
  decide +kernel

theorem fingerprint_last_iff_stamped :
    let calls : List AddCall := [.ordinary ⟨.priority, rfl, ⟨7⟩⟩, .fingerprint]
    let e := (run add (new 0x0001 (ByteArrayN.zero 12) (List.replicate 64 0)) calls).2.finalize
    FingerprintLast e.buffer.bytes e.totalSize ↔ calls.getLast? = some .fingerprint :=
  fingerprint_last_iff 0x0001 (ByteArrayN.zero 12) (List.replicate 64 0)
    [.ordinary ⟨.priority, rfl, ⟨7⟩⟩, .fingerprint] (by decide +kernel) (by decide +kernel)

/-- A PRIORITY behind the FINGERPRINT is accepted, and the FINGERPRINT is no longer last. -/
theorem fingerprint_not_last :
    let calls : List AddCall := [.fingerprint, .ordinary ⟨.priority, rfl, ⟨7⟩⟩]
    let out := run add (new 0x0001 (ByteArrayN.zero 12) (List.replicate 64 0)) calls
    (∀ r ∈ out.1, r.ok = true) ∧ out.2.finalize.totalSize - 20 ≤ 65535 ∧
      ¬FingerprintLast out.2.finalize.buffer.bytes out.2.finalize.totalSize := by
  intro calls out
  have hok : ∀ r ∈ out.1, r.ok = true := by decide +kernel
  have hsent := sent_run 0x0001 (ByteArrayN.zero 12) (List.replicate 64 0) hok
  refine ⟨hok, by decide +kernel, ?_⟩
  intro hlast
  rw [finalize_totalSize, hsent.fingerprint_iff (by decide +kernel), map_fst_history] at hlast
  cases hlast

end Priority

end Encoder

end Stunxx
