import Stunxx.Lib.Tlv
import Stunxx.Stun

/-!
# The wire format

What a STUN message is, without the encoder or the decoder: twenty bytes of header and a stream of
attributes of the format `stunFormat`. `Framed` says that a buffer starts with a message's header
and has room for the length it announces, `Grammar` that the announced bytes are a tiling.
-/

namespace Stunxx

open Overlay Tlv

/-! ## The header -/

/-- A header, in host byte order, as it lies on the wire. -/
def StunHeader.wire (h : StunHeader) : Bytes :=
  writeBe16 h.msgType ++ writeBe16 h.msgLength ++ writeBe32 h.magicCookie ++ h.transactionId.val

@[simp] theorem StunHeader.length_wire (h : StunHeader) : h.wire.length = 20 := by
  have htid := h.transactionId.property
  simp only [StunHeader.wire, List.length_append, length_writeBe16, length_writeBe32, htid,
    stunTransactionIdSize]

theorem StunHeader.wire_inj {h g : StunHeader} (heq : h.wire = g.wire) : h = g := by
  obtain ⟨type, len, cookie, tid⟩ := h
  obtain ⟨type', len', cookie', tid'⟩ := g
  obtain ⟨hrest, htid⟩ := List.append_inj heq rfl
  obtain ⟨hrest, hcookie⟩ := List.append_inj hrest rfl
  obtain ⟨htype, hlen⟩ := List.append_inj hrest rfl
  obtain rfl : type = type' := writeBe16_inj htype
  obtain rfl : len = len' := writeBe16_inj hlen
  obtain rfl : cookie = cookie' := writeBe32_inj hcookie
  obtain rfl : tid = tid' := Subtype.ext htid
  rfl

/-- The length field is bytes 2 and 3. -/
theorem StunHeader.overlay_wire (h : StunHeader) (length : UInt16) :
    overlay h.wire 2 (writeBe16 length) = { h with msgLength := length }.wire := by
  have hsplit : h.wire = (writeBe16 h.msgType ++ writeBe16 h.msgLength) ++
      (writeBe32 h.magicCookie ++ h.transactionId.val) := List.append_assoc _ _ _
  rw [hsplit, overlay_append_left _ (Nat.le_refl 4)]
  exact (List.append_assoc _ _ _).symm

/-- The length field and the cookie of a message. -/
theorem slice_header {buffer : Bytes} {h : StunHeader} (htake : buffer.take 20 = h.wire) :
    slice buffer 2 2 = writeBe16 h.msgLength ∧ slice buffer 4 4 = writeBe32 h.magicCookie := by
  have hlength := slice_take buffer (i := 2) (n := 2) (m := 20) (by omega)
  have hcookie := slice_take buffer (i := 4) (n := 4) (m := 20) (by omega)
  rw [← hlength, ← hcookie, htake]
  exact ⟨rfl, rfl⟩

/-- Twenty bytes are the wire form of a header. -/
theorem StunHeader.exists_wire {buffer : Bytes} (h : 20 ≤ buffer.length) :
    ∃ header : StunHeader, buffer.take 20 = header.wire := by
  obtain ⟨b0, b1, b2, b3, b4, b5, b6, b7, rest, rfl⟩ :
      ∃ b0 b1 b2 b3 b4 b5 b6 b7 rest,
        buffer = b0 :: b1 :: b2 :: b3 :: b4 :: b5 :: b6 :: b7 :: rest := by
    match buffer, h with
    | b0 :: b1 :: b2 :: b3 :: b4 :: b5 :: b6 :: b7 :: rest, _ =>
      exact ⟨b0, b1, b2, b3, b4, b5, b6, b7, rest, rfl⟩
  have htid : (rest.take 12).length = stunTransactionIdSize := by
    simp only [List.length_cons] at h
    rw [List.length_take, stunTransactionIdSize]
    omega
  refine ⟨⟨readBe16 b0 b1, readBe16 b2 b3, readBe32 b4 b5 b6 b7, ⟨rest.take 12, htid⟩⟩, ?_⟩
  simp only [StunHeader.wire, writeBe16_readBe16, writeBe32_readBe32]
  rfl

/-- The header the encoder builds in network byte order has the wire form of its values. -/
theorem StunHeader.bytes_hostToBe [Platform] (type length : UInt16) (tid : TransactionId) :
    StunHeader.bytes ⟨hostToBe16 type, hostToBe16 length, hostToBe32 Stunxx.magicCookie, tid⟩ =
      StunHeader.wire ⟨type, length, Stunxx.magicCookie, tid⟩ := by
  simp only [StunHeader.bytes, StunHeader.wire, image_hostToBe16_eq, image_hostToBe32_eq]

/-! ## Attributes -/

/-- The type and the length at the head of an attribute. -/
def readAttrHead : Bytes → UInt16 × Nat
  | b0 :: b1 :: b2 :: b3 :: _ => (readBe16 b0 b1, (readBe16 b2 b3).toNat)
  | _ => (0, 0)

/-- Attributes: four bytes of header, the value, padding to a multiple of four. -/
def stunFormat : Format UInt8 UInt16 where
  headSize := 4
  limit := 65536
  head t n := writeHeader t (UInt16.ofNat n)
  readHead := readAttrHead
  pad n := roundUp4 n - n
  headSize_pos := by decide
  length_head _ _ := rfl
  readHead_head t n rest h := by
    have htype := readBe16_of_writeBe16 (v := t) rfl
    have hlen := readBe16_of_writeBe16 (v := UInt16.ofNat n) rfl
    simp only [writeHeader, writeBe16, List.cons_append, List.nil_append, readAttrHead, htype, hlen,
      UInt16.toNat_ofNat', Nat.mod_eq_of_lt h]
  readHead_lt bs := by
    unfold readAttrHead
    split
    · exact (readBe16 _ _).toNat_lt
    · decide
  head_readHead bs h := by
    match bs, h with
    | b0 :: b1 :: b2 :: b3 :: rest, _ =>
      simp only [readAttrHead, UInt16.ofNat_toNat, writeHeader, writeBe16_readBe16]
      rfl

@[simp] theorem headSize_stunFormat : stunFormat.headSize = 4 := rfl

@[simp] theorem pad_stunFormat (n : Nat) : stunFormat.pad n = roundUp4 n - n := rfl

/-- An attribute as it lies on the wire. -/
abbrev WireAttr := Record UInt8 UInt16

theorem stride_stunFormat (r : WireAttr) :
    stride stunFormat r = attrHeaderSize + roundUp4 r.value.length := by
  have hle := le_roundUp4 r.value.length
  simp only [stride, headSize_stunFormat, pad_stunFormat, attrHeaderSize]
  omega

/-- The header the decoder keeps of a place. -/
def AttrHeader.ofPlace (p : Place UInt16) : AttrHeader := ⟨p.tag, UInt16.ofNat p.len, p.off⟩

/-- The headers of a stream of attributes that starts at `off`. -/
def wireHeaders (off : Nat) (rs : List WireAttr) : List AttrHeader :=
  (layout stunFormat off rs).map AttrHeader.ofPlace

/-- Headers of values short enough to be counted in 16 bits keep the places of the stream. -/
theorem mem_wireHeaders {off : Nat} {rs : List WireAttr} (hrs : ∀ r ∈ rs, r.value.length < 65536)
    {hd : AttrHeader} (h : hd ∈ wireHeaders off rs) :
    ∃ p ∈ layout stunFormat off rs,
      hd.type = p.tag ∧ hd.len.toNat = p.len ∧ hd.offset = p.off := by
  obtain ⟨p, hp, rfl⟩ := List.mem_map.1 h
  obtain ⟨r, hr, -, hlen⟩ := exists_of_mem_layout stunFormat hp
  have hlt := hrs r hr
  refine ⟨p, hp, rfl, ?_, rfl⟩
  rw [AttrHeader.ofPlace, UInt16.toNat_ofNat', Nat.mod_eq_of_lt (by omega)]

/-- The types the decoder must report: unknown and below 0x8000. -/
def unknownTypes (rs : List WireAttr) : List UInt16 :=
  (rs.map Record.tag).filter fun t => isComprehensionRequired t && !isKnownAttrType t

/-! ## Messages -/

/-- The buffer starts with the header of a message and has room for the length it announces. -/
structure Framed (buffer : Bytes) (h : StunHeader) : Prop where
  take_eq : buffer.take 20 = h.wire
  cookie : h.magicCookie = magicCookie
  room : 20 + h.msgLength.toNat ≤ buffer.length

/-- The attribute bytes a header announces. -/
def attrBytes (buffer : Bytes) (h : StunHeader) : Bytes := slice buffer 20 h.msgLength.toNat

/-- The attributes that a walk of the announced bytes reads, whether it accepts them all or not. -/
def attrsRead (buffer : Bytes) (h : StunHeader) : List WireAttr :=
  (walk stunFormat (attrBytes buffer h)).2

/-- A message: a header, and attributes that tile the bytes it announces. -/
structure Grammar (buffer : Bytes) (h : StunHeader) (rs : List WireAttr) : Prop
    extends Framed buffer h where
  tiling : Tiling stunFormat (attrBytes buffer h) rs

theorem Framed.length_attrBytes {buffer : Bytes} {h : StunHeader} (hf : Framed buffer h) :
    (attrBytes buffer h).length = h.msgLength.toNat := length_slice_of_le hf.room

theorem Framed.unique {buffer : Bytes} {h g : StunHeader} (hf : Framed buffer h)
    (hg : Framed buffer g) : h = g :=
  StunHeader.wire_inj (hf.take_eq.symm.trans hg.take_eq)

theorem Grammar.attrsRead_eq {buffer : Bytes} {h : StunHeader} {rs : List WireAttr}
    (hg : Grammar buffer h rs) : attrsRead buffer h = rs :=
  congrArg Prod.snd (hg.tiling.walk_eq stunFormat)

theorem Grammar.value_lt {buffer : Bytes} {h : StunHeader} {rs : List WireAttr}
    (hg : Grammar buffer h rs) : ∀ r ∈ rs, r.value.length < 65536 := by
  intro r hr
  rw [← hg.attrsRead_eq] at hr
  exact walk_value_lt stunFormat hr

/-- A header and full attributes of the length it announces are a message. -/
theorem Grammar.of_wire {h : StunHeader} {rs : List WireAttr}
    (hcookie : h.magicCookie = magicCookie) (hrs : ∀ r ∈ rs, Full stunFormat r)
    (hlength : h.msgLength.toNat = (rs.flatMap (wire stunFormat)).length) :
    Grammar (h.wire ++ rs.flatMap (wire stunFormat)) h rs := by
  have hwire := h.length_wire
  have hattrs : attrBytes (h.wire ++ rs.flatMap (wire stunFormat)) h =
      rs.flatMap (wire stunFormat) := by
    rw [attrBytes, slice, List.drop_left' hwire, hlength, List.take_length]
  refine ⟨⟨List.take_left' hwire, hcookie, ?_⟩, ?_⟩
  · rw [List.length_append, hwire, hlength]
  · rw [hattrs]
    exact tiling_flatMap stunFormat hrs

/-- A buffer is one message in at most one way. -/
theorem Grammar.unique {buffer : Bytes} {h g : StunHeader} {rs qs : List WireAttr}
    (hg : Grammar buffer h rs) (hg' : Grammar buffer g qs) : h = g ∧ rs = qs := by
  obtain rfl := hg.toFramed.unique hg'.toFramed
  exact ⟨rfl, hg.tiling.unique stunFormat hg'.tiling⟩

end Stunxx
