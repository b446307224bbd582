import Stunxx.Verify.RoundTrip

/-!
# The response to unknown attributes

A decoder collects the unknown comprehension-required types of a request, and a 420 response carries
them in an UNKNOWN-ATTRIBUTES. There are at most as many as attribute headers fit in 65535 bytes
(`unknownRequired_le`), so neither the length of the attribute nor that of the message wraps, and
the response is delivered like any message with one attribute (`deliver_one`).
-/

namespace Stunxx

open Overlay Tlv

/-- A request reports at most 16383 types. -/
theorem Decoder.unknownRequired_le {request : Bytes} {d : Decoder}
    (hparse : parse request = .ok (some d)) : d.unknownRequired.length ≤ 16383 := by
  obtain ⟨h, rs, hg, rfl⟩ := parse_eq_some_iff.1 hparse
  have hcount := hg.tiling.length_mul_headSize_le stunFormat
  have hlen := hg.toFramed.length_attrBytes
  have hlt := h.msgLength.toNat_lt
  have hfilter : (unknownTypes rs).length ≤ (rs.map Record.tag).length :=
    List.length_filter_le _ _
  rw [List.length_map] at hfilter
  rw [headSize_stunFormat] at hcount
  show (unknownTypes rs).length ≤ 16383
  omega

section Response

variable [Platform] {tid : TransactionId} {a : Attr}

namespace Encoder

variable (e : Encoder) (hsize : a.valueSize ≤ 65535)
  (hroom : e.offset + (4 + roundUp4 a.valueSize) ≤ e.buffer.bytes.length)

include hsize hroom

/-- An attribute that fits is added. -/
theorem addAttribute_of_room :
    e.addAttribute a.obj = (true, e.append a.obj) ∧
      e.offset + padded a.obj ≤ e.buffer.bytes.length ∧
      (e.append a.obj).offset = e.offset + (4 + roundUp4 a.valueSize) := by
  have hvalue : AttributeSpec.valueSize a.obj < 65536 := Nat.lt_succ_of_le hsize
  have hpad : padded a.obj = 4 + roundUp4 a.valueSize := by
    rw [padded, length_of_lt a.ready hvalue]
    rfl
  have hslot : e.offset + padded a.obj ≤ e.buffer.bytes.length := by
    rw [hpad]
    exact hroom
  have hadd := addAttribute_eq e a.ready
  rw [if_pos ⟨hslot, (room_of_lt a.ready hvalue).le⟩] at hadd
  exact ⟨hadd, hslot, by rw [append_offset, hpad]⟩

/-- The length field of the added attribute. -/
theorem slice_length_append :
    slice (e.append a.obj).buffer.bytes (e.offset + 2) 2 =
      writeBe16 (UInt16.ofNat a.valueSize) := by
  have hlen : StunAttribute.length a.obj = a.valueSize :=
    length_of_lt a.ready (Nat.lt_succ_of_le hsize)
  have hheader := slice_append_header e a.obj (by omega)
  have hsplit := slice_add (e.append a.obj).buffer.bytes e.offset 2 2
  have htype : (slice (e.append a.obj).buffer.bytes e.offset 2).length = 2 := by
    rw [length_slice_of_le]
    rw [length_append]
    omega
  rw [hlen, writeHeader] at hheader
  exact (List.append_inj (hsplit.symm.trans hheader) htype).2

end Encoder

/-- The record of an attribute is found by its class. -/
theorem find_of_carries {r : WireAttr} (hr : Carries (.ordinary a, { ok := true }) r)
    (hlimits : a.InLimits tid) (hsize : a.valueSize ≤ 65535) :
    (([r].find? fun r => r.tag == (StunAttribute.type a.cls.Obj).code).bind
      fun r => StunAttribute.decode tid r.value) = some a.obj := by
  have htag : r.tag = (StunAttribute.type a.cls.Obj).code := hr.tag
  have hfind : ([r].find? fun r => r.tag == (StunAttribute.type a.cls.Obj).code) = some r :=
    List.find?_cons_of_pos (beq_iff_eq.2 htag)
  have hread := valueOf_ordinary a.ordinary hr fun b hb => by
    cases hb
    exact ⟨hlimits, hsize⟩
  rw [valueOf_of_tag_eq htag] at hread
  rw [hfind, Option.bind_some]
  exact hread.trans a.as?_self

/-- A message with one attribute, finished, is read back. -/
theorem Sent.delivers_one {type : UInt16} {size : Nat} {e : Encoder}
    (h : Sent type tid size [(.ordinary a, { ok := true })] e) (hbuffer : 20 ≤ size)
    (hbound : e.offset - 20 ≤ 65535) (hlimits : a.InLimits tid) (hsize : a.valueSize ≤ 65535) :
    ∃ d, Decoder.parse (e.finalize.buffer.bytes.take e.offset) = .ok (some d) ∧
      d.getAttribute a.cls.Obj = some a.obj ∧ d.unknownRequired = [] := by
  have hopen : ¬e.Sealed := by
    rw [h.sealed_iff]
    rintro ⟨x, hx, hseal⟩
    rw [List.mem_singleton.1 hx] at hseal
    cases hseal
  obtain ⟨rs, hrs, hbytes⟩ := h.records hbound
  have hg := h.grammar hbuffer hbound (.inl hopen) hrs hbytes
  refine ⟨_, Decoder.parse_eq_some_iff.2 ⟨_, rs, hg, rfl⟩, ?_, unknownTypes_sent hrs⟩
  cases hrs with
  | @cons _ r _ _ hr hnil =>
    cases hnil
    rw [Decoder.getAttribute_parsed _ hg]
    exact find_of_carries hr hlimits hsize

/-- **A message with one attribute is delivered**, if the attribute fits in the buffer and its size
in a length field. -/
theorem Encoder.deliver_one (type : UInt16) (tid : TransactionId) (buffer : Bytes) (a : Attr)
    (hlimits : a.InLimits tid) (hbound : 4 + roundUp4 a.valueSize ≤ 65535)
    (hroom : 24 + roundUp4 a.valueSize ≤ buffer.length) :
    ∃ e, (new type tid buffer).addAttribute a.obj = (true, e) ∧
      (∃ length, slice e.finalize.buffer.bytes 22 2 = writeBe16 length ∧
        length.toNat = a.valueSize) ∧
      ∃ d, Decoder.parse (e.finalize.buffer.bytes.take e.finalize.totalSize) = .ok (some d) ∧
        d.getAttribute a.cls.Obj = some a.obj ∧ d.unknownRequired = [] := by
  have hle := le_roundUp4 a.valueSize
  have hsize : a.valueSize ≤ 65535 := by omega
  have hfit : (new type tid buffer).offset + (4 + roundUp4 a.valueSize) ≤
      (new type tid buffer).buffer.bytes.length := by
    rw [← Nat.add_assoc]
    exact hroom
  obtain ⟨hadd, hslot, hoffset⟩ := addAttribute_of_room _ hsize hfit
  have hlength := slice_length_append _ hsize hfit
  have hsent := (sent_new type tid buffer).ordinary hslot
  have hstart : (new type tid buffer).offset = 20 := rfl
  rw [hstart] at hlength hoffset
  generalize (new type tid buffer).append a.obj = e at *
  refine ⟨e, hadd, ⟨UInt16.ofNat a.valueSize, ?_, ?_⟩, ?_⟩
  · rw [(extends_finalize e).slice_eq (by omega) (by omega), hlength]
  · rw [UInt16.toNat_ofNat', Nat.mod_eq_of_lt (by omega)]
  · rw [finalize_totalSize]
    exact hsent.delivers_one (by omega) (by omega) hlimits hsize

/-- **Any request with unknown attributes can be answered**: their types fit in an
UNKNOWN-ATTRIBUTES, and a receiver of the response reads exactly these types and knows all of its
attributes. -/
theorem Encoder.unknown_response {request : Bytes} {d : Decoder}
    (hparse : Decoder.parse request = .ok (some d)) :
    d.unknownRequired.length ≤ 16383 ∧
    ∀ (type : UInt16) (tid : TransactionId) (buffer : Bytes),
      24 + roundUp4 (2 * d.unknownRequired.length) ≤ buffer.length →
      ∃ e, (new type tid buffer).addAttribute (⟨d.unknownRequired⟩ : UnknownAttributesAttr) =
          (true, e) ∧
        (∃ length, slice e.finalize.buffer.bytes 22 2 = writeBe16 length ∧
          length.toNat = 2 * d.unknownRequired.length) ∧
        ∃ r, Decoder.parse (e.finalize.buffer.bytes.take e.finalize.totalSize) = .ok (some r) ∧
          r.getAttribute UnknownAttributesAttr = some ⟨d.unknownRequired⟩ ∧
          r.unknownRequired = [] := by
  have hcount := Decoder.unknownRequired_le hparse
  refine ⟨hcount, ?_⟩
  intro type tid buffer hroom
  have hsize : Attr.valueSize ⟨.unknownAttributes, rfl, ⟨d.unknownRequired⟩⟩ =
      2 * d.unknownRequired.length :=
    (UnknownAttributesAttr.length_wireValue ⟨d.unknownRequired⟩).trans (Nat.mul_comm _ _)
  have hlt := roundUp4_lt (2 * d.unknownRequired.length)
  have hanswer := deliver_one type tid buffer ⟨.unknownAttributes, rfl, ⟨d.unknownRequired⟩⟩
    trivial (by rw [hsize]; omega) (by rwa [hsize])
  rwa [hsize] at hanswer

end Response

/-! A Binding request with an attribute of the type 0x7F00, and the response of 28 bytes. -/

local instance strangerHost : Platform := .ofDigest []

def strangeHeader : StunHeader := ⟨0x0001, 4, magicCookie, ByteArrayN.zero 12⟩

def strangeAttrs : List WireAttr := [⟨0x7F00, [], []⟩]

def strangeMessage : Bytes := strangeHeader.wire ++ strangeAttrs.flatMap (wire stunFormat)

theorem parse_strangeMessage :
    Decoder.parse strangeMessage =
      .ok (some (Decoder.parsed strangeMessage strangeHeader strangeAttrs)) := by
  refine Decoder.parse_eq_some_iff.2 ⟨_, _, Grammar.of_wire rfl ?_ rfl, rfl⟩
  intro r hr
  rw [List.mem_singleton.1 hr]
  exact ⟨by decide, rfl⟩

theorem Encoder.unknown_response_strange :
    (Decoder.parsed strangeMessage strangeHeader strangeAttrs).unknownRequired = [0x7F00] ∧
    ∃ e, (new 0x0111 (ByteArrayN.zero 12) (List.replicate 28 0)).addAttribute
        (⟨[0x7F00]⟩ : UnknownAttributesAttr) = (true, e) ∧
      (∃ length, slice e.finalize.buffer.bytes 22 2 = writeBe16 length ∧ length.toNat = 2) ∧
      ∃ r, Decoder.parse (e.finalize.buffer.bytes.take e.finalize.totalSize) = .ok (some r) ∧
        r.getAttribute UnknownAttributesAttr = some ⟨[0x7F00]⟩ ∧ r.unknownRequired = [] :=
  ⟨by decide, (unknown_response parse_strangeMessage).2 0x0111 (ByteArrayN.zero 12)
    (List.replicate 28 0) (by decide)⟩

end Stunxx
