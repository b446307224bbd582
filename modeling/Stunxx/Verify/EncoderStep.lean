import Stunxx.Encoder
import Stunxx.Wire

/-!
# What one call of the encoder can do

Every add is described by two moves: `announce n`, which writes a header whose length counts `n`
more bytes, and `append a`, which issues the stores of `a` at the end of the message and moves the
offset; an attribute whose size fits in 16 bits fills its `slot` there. A MESSAGE-INTEGRITY is
announced and appended (`sign`), and so is the FINGERPRINT (`stamp`). `add_outcome` lists what an
add can amount to, guards included; nothing above this module unfolds the encoder.
-/

namespace Stunxx

open Overlay Tlv

/-- The MESSAGE-INTEGRITY object a call was given. -/
def AddCall.given : AddCall → Option ((kind : IntegrityKind) × kind.Obj)
  | .integrity kind a => some ⟨kind, a⟩
  | _ => none

namespace Encoder

/-! ## Appending -/

/-- The size an attribute takes in a message. -/
def padded {α : Type} [StunAttribute α] (a : α) : Nat :=
  attrHeaderSize + roundUp4 (StunAttribute.length a)

/-- Issue the stores of an attribute at the end of the message. -/
def append {α : Type} [AttributeSpec α] (e : Encoder) (a : α) : Encoder :=
  { e with
    buffer := e.buffer.storeAll e.offset
      (memcpy 0 (writeHeader (StunAttribute.type α).code (UInt16.ofNat (StunAttribute.length a))) ::
        AttributeSpec.body a)
    offset := e.offset + padded a }

section Append

variable {α : Type} [AttributeSpec α] (e : Encoder) (a : α)

@[simp] theorem append_offset : (e.append a).offset = e.offset + padded a := rfl

@[simp] theorem append_stunHeader : (e.append a).stunHeader = e.stunHeader := rfl

@[simp] theorem append_hasMessageIntegrity :
    (e.append a).hasMessageIntegrity = e.hasMessageIntegrity := rfl

@[simp] theorem append_hasFingerprint : (e.append a).hasFingerprint = e.hasFingerprint := rfl

@[simp] theorem length_append : (e.append a).buffer.bytes.length = e.buffer.bytes.length := by
  rw [append, Memory.storeAll_bytes, length_patch]

/-- The message so far is untouched by an appended attribute. -/
theorem take_append {n : Nat} (hn : n ≤ e.offset) :
    (e.append a).buffer.bytes.take n = e.buffer.bytes.take n := by
  rw [append, Memory.storeAll_bytes]
  apply take_patch
  intro s _
  omega

/-- The stores behind the header leave the header alone. -/
theorem slice_append_header (hfit : e.offset + 4 ≤ e.buffer.bytes.length) :
    slice (e.append a).buffer.bytes e.offset 4 =
      writeHeader (StunAttribute.type α).code (UInt16.ofNat (StunAttribute.length a)) := by
  rw [append, Memory.storeAll_bytes, patch_cons]
  rw [slice_congr_take (take_patch _ (n := e.offset + 4) ?_) (Nat.le_refl _)]
  · exact slice_overlay_self (by rwa [memcpy_items, length_writeHeader, memcpy_dst])
  · intro s hs
    have hdst := AttributeSpec.le_dst_body a s hs
    simp only [attrHeaderSize] at hdst
    omega

end Append

section Slot

variable {α : Type} [AttributeSpec α] {a : α}

/-- The bytes of an attribute: its header, its value and the padding. -/
def slot (a : α) : Bytes :=
  writeHeader (StunAttribute.type α).code (UInt16.ofNat (StunAttribute.length a)) ++
    (AttributeSpec.wireValue a ++ padding (AttributeSpec.wireValue a).length)

/-- The `length()` of a value that fits 16 bits is its size. -/
theorem length_of_lt (hready : AttributeSpec.ready a = true)
    (hvalue : AttributeSpec.valueSize a < 65536) :
    StunAttribute.length a = AttributeSpec.valueSize a :=
  AttributeSpec.length_eq a hready (AttributeSpec.not_truncates a hvalue)

/-- Its `encode` asks for the slot that the encoder gives it. -/
theorem room_of_lt (hready : AttributeSpec.ready a = true)
    (hvalue : AttributeSpec.valueSize a < 65536) : AttributeSpec.room a = padded a :=
  AttributeSpec.room_eq a hready (AttributeSpec.not_truncates a hvalue)

theorem length_slot (hready : AttributeSpec.ready a = true)
    (hvalue : AttributeSpec.valueSize a < 65536) : (slot a).length = padded a := by
  have hlen := length_of_lt hready hvalue
  have hwire := AttributeSpec.length_wireValue a hready
  have hle := le_roundUp4 (AttributeSpec.valueSize a)
  simp only [slot, List.length_append, length_writeHeader, length_padding, hwire, padded, hlen,
    attrHeaderSize]
  omega

/-- Behind the header of a slot comes the value. -/
theorem drop_slot_append (a : α) (rest : Bytes) :
    (slot a ++ rest).drop attrHeaderSize = AttributeSpec.wireValue a ++
      (padding (AttributeSpec.wireValue a).length ++ rest) := by
  rw [slot, List.append_assoc, List.append_assoc]
  rfl

/-- An appended attribute is written over its slot and nowhere else. -/
theorem append_bytes (e : Encoder) (hready : AttributeSpec.ready a = true)
    (hvalue : AttributeSpec.valueSize a < 65536) :
    (e.append a).buffer.bytes = overlay e.buffer.bytes e.offset (slot a) := by
  have happ := overlay_append e.buffer.bytes e.offset
    (writeHeader (StunAttribute.type α).code (UInt16.ofNat (StunAttribute.length a)))
    (AttributeSpec.wireValue a ++ padding (AttributeSpec.wireValue a).length)
  rw [length_writeHeader] at happ
  rw [append, Memory.storeAll_bytes, patch_cons, AttributeSpec.patch_body a hready hvalue, slot,
    happ]
  rfl

/-- The message with its new attribute, from any place in it on. -/
theorem slice_append_slot (e : Encoder) (hready : AttributeSpec.ready a = true)
    (hvalue : AttributeSpec.valueSize a < 65536)
    (hroom : e.offset + padded a ≤ e.buffer.bytes.length) {i : Nat} (hi : i ≤ e.offset) :
    slice (e.append a).buffer.bytes i ((e.append a).offset - i) =
      slice e.buffer.bytes i (e.offset - i) ++ slot a := by
  have hlen := length_slot hready hvalue
  have hsplit : e.offset + padded a - i = (e.offset - i) + padded a := by omega
  have hself : slice (overlay e.buffer.bytes e.offset (slot a)) e.offset (slot a).length = slot a :=
    slice_overlay_self (by rwa [hlen])
  rw [hlen] at hself
  rw [append_offset, hsplit, slice_add, append_bytes e hready hvalue, Nat.add_sub_cancel' hi, hself,
    slice_overlay_of_disjoint _ (.inl (by omega))]

/-- An attribute that is encoded into a span of its own fills its slot there. -/
theorem overlay_of_encode {xs : Bytes} (hready : AttributeSpec.ready a = true)
    (hvalue : AttributeSpec.valueSize a < 65536)
    (hok : (StunAttribute.encode a xs.length).1 = true) :
    patch xs 0 (StunAttribute.encode a xs.length).2 = overlay xs 0 (slot a) ∧
      padded a ≤ xs.length := by
  have hroom := room_of_lt hready hvalue
  rw [AttributeSpec.encode_eq] at hok ⊢
  split at hok
  · next hcond =>
    rw [if_pos hcond]
    -- the span is the buffer of an encoder whose message is empty
    have happ := append_bytes (a := a) { buffer := { bytes := xs }, offset := 0 } hready hvalue
    rw [append, Memory.storeAll_bytes] at happ
    exact ⟨happ, hroom.symm.trans_le hcond.2⟩
  · cases hok

/-- What it leaves behind its header is the value. -/
theorem writtenValue_eq {xs : Bytes} (hsize : AttributeSpec.valueSize a ≤ 65535)
    (hok : (StunAttribute.encode a xs.length).1 = true) :
    StunAttribute.writtenValue a xs = AttributeSpec.wireValue a := by
  have hready := (AttributeSpec.encode_ok_iff.1 hok).1
  have hvalue : AttributeSpec.valueSize a < 65536 := Nat.lt_succ_of_le hsize
  have hlen := length_of_lt hready hvalue
  have hwire := AttributeSpec.length_wireValue a hready
  obtain ⟨hslot, hroom⟩ := overlay_of_encode hready hvalue hok
  rw [← length_slot hready hvalue] at hroom
  have hdrop := drop_overlay_self ((Nat.zero_add _).trans_le hroom)
  rw [List.drop_zero] at hdrop
  rw [StunAttribute.writtenValue, hslot, hdrop, slice, drop_slot_append, hlen, ← hwire,
    List.take_left]

/-- An object is encoded into a span that has room for its slot. -/
theorem writes_of_room {xs : Bytes} (hready : AttributeSpec.ready a = true)
    (hsize : AttributeSpec.valueSize a ≤ 65535)
    (hroom : attrHeaderSize + roundUp4 (AttributeSpec.valueSize a) ≤ xs.length) :
    (StunAttribute.encode a xs.length).1 = true ∧
      StunAttribute.writtenValue a xs = AttributeSpec.wireValue a := by
  have hvalue : AttributeSpec.valueSize a < 65536 := Nat.lt_succ_of_le hsize
  rw [← length_of_lt hready hvalue, ← padded, ← room_of_lt hready hvalue] at hroom
  have hok := AttributeSpec.encode_ok_iff.2 ⟨hready, hroom⟩
  exact ⟨hok, writtenValue_eq hsize hok⟩

/-- Behind its header, an appended attribute that fits 16 bits holds its value. -/
theorem slice_append_value (e : Encoder) (a : α) (hready : AttributeSpec.ready a = true)
    (hfit : e.offset + padded a ≤ e.buffer.bytes.length)
    (hvalue : AttributeSpec.valueSize a < 65536) :
    slice (e.append a).buffer.bytes (e.offset + 4) (AttributeSpec.valueSize a) =
      AttributeSpec.wireValue a := by
  have hsize := length_slot hready hvalue
  have hwire := AttributeSpec.length_wireValue a hready
  have hbehind : (slot a).drop 4 = AttributeSpec.wireValue a ++
      padding (AttributeSpec.wireValue a).length := by
    have hdrop := drop_slot_append a []
    rwa [List.append_nil, List.append_nil] at hdrop
  have hhead : 4 ≤ padded a := Nat.le_add_right _ _
  have hlen := congrArg List.length hbehind
  rw [List.length_drop, List.length_append, hwire] at hlen
  rw [append_bytes e hready hvalue, slice_overlay_of_within (by omega) (by omega) (by omega),
    Nat.add_sub_cancel_left, slice, hbehind, ← hwire, List.take_left]

/-- An appended attribute lies on the wire as a record of its type and its `length()`. If its size
fits in 16 bits the record's value is the attribute's; otherwise `length()` was cut and the value is
whatever the stores left there. -/
theorem exists_record (e : Encoder) (a : α) (hready : AttributeSpec.ready a = true)
    (hfit : e.offset + padded a ≤ e.buffer.bytes.length)
    (hlen : StunAttribute.length a < 65536) :
    ∃ r : WireAttr, Full stunFormat r ∧ r.tag = (StunAttribute.type α).code ∧
      r.value.length = StunAttribute.length a ∧
      (AttributeSpec.valueSize a < 65536 → r.value = AttributeSpec.wireValue a) ∧
      slice (e.append a).buffer.bytes e.offset (padded a) = wire stunFormat r := by
  have hle := le_roundUp4 (StunAttribute.length a)
  have hsize : (e.append a).buffer.bytes.length = e.buffer.bytes.length := length_append e a
  simp only [padded, attrHeaderSize] at hfit ⊢
  have hhead := slice_append_header e a (by omega)
  refine ⟨⟨(StunAttribute.type α).code,
    slice (e.append a).buffer.bytes (e.offset + 4) (StunAttribute.length a),
    slice (e.append a).buffer.bytes (e.offset + 4 + StunAttribute.length a)
      (roundUp4 (StunAttribute.length a) - StunAttribute.length a)⟩, ⟨?_, ?_⟩, rfl, ?_, ?_, ?_⟩
  · rw [length_slice_of_le (by omega)]
    exact hlen
  · rw [length_slice_of_le (by omega), length_slice_of_le (by omega)]
    rfl
  · exact length_slice_of_le (by omega)
  · intro hvalue
    rw [length_of_lt hready hvalue]
    exact slice_append_value e a hready hfit hvalue
  · rw [wire, length_slice_of_le (by omega)]
    have hsplit : 4 + roundUp4 (StunAttribute.length a) = 4 + StunAttribute.length a +
        (roundUp4 (StunAttribute.length a) - StunAttribute.length a) := by omega
    conv =>
      lhs
      rw [hsplit]
    rw [slice_add, slice_add, hhead, ← Nat.add_assoc]
    rfl

end Slot

theorem encode_padded {α : Type} [AttributeSpec α] {a : α}
    (hready : AttributeSpec.ready a = true) :
    StunAttribute.encode a (padded a) =
      if AttributeSpec.room a ≤ padded a then
        (true, memcpy 0 (writeHeader (StunAttribute.type α).code
          (UInt16.ofNat (StunAttribute.length a))) :: AttributeSpec.body a)
      else (false, []) := by
  simp only [AttributeSpec.encode_eq, hready, true_and]

/-- The add of an ordinary attribute. -/
theorem addAttribute_eq {α : Type} [AttributeSpec α] (e : Encoder) {a : α}
    (hready : AttributeSpec.ready a = true) :
    e.addAttribute a =
      if e.offset + padded a ≤ e.buffer.bytes.length ∧ AttributeSpec.room a ≤ padded a then
        (true, e.append a)
      else (false, e) := by
  have henc := encode_padded hready
  by_cases hfit : e.buffer.bytes.length < e.offset + padded a
  · rw [if_neg (by omega)]
    exact if_pos hfit
  · have hstep : e.addAttribute a =
        (let written := StunAttribute.encode a (padded a)
        let e := { e with buffer := e.buffer.storeAll e.offset written.2 }
        if !written.1 then (false, e) else (true, { e with offset := e.offset + padded a })) :=
      if_neg hfit
    by_cases hroom : AttributeSpec.room a ≤ padded a
    · rw [if_pos hroom] at henc
      rw [if_pos ⟨by omega, hroom⟩, hstep, henc]
      rfl
    · rw [if_neg hroom] at henc
      rw [if_neg fun h => hroom h.2, hstep, henc]
      rfl

section Integrity

variable {T : StunAttrType}

/-- The size of a MESSAGE-INTEGRITY in a message. -/
def sealSize (T : StunAttrType) : Nat := attrHeaderSize + MessageIntegrityAttrT.expectedSize T

theorem padded_of_hmac {a : MessageIntegrityAttrT T}
    (h : a.hmac.length = MessageIntegrityAttrT.expectedSize T) : padded a = sealSize T := by
  show attrHeaderSize + roundUp4 a.length.toNat = _
  rw [MessageIntegrityAttrT.toNat_length h, MessageIntegrityAttrT.roundUp4_expectedSize, sealSize]

theorem encode_of_hmac {a : MessageIntegrityAttrT T}
    (h : a.hmac.length = MessageIntegrityAttrT.expectedSize T) :
    a.encode (sealSize T) =
      (true, memcpy 0 (writeHeader T.code (UInt16.ofNat a.length.toNat)) :: a.body) := by
  have hready : AttributeSpec.ready a = true := beq_iff_eq.2 h
  have henc := encode_padded hready
  rw [padded_of_hmac h] at henc
  exact henc.trans (if_pos (Nat.le_refl _))

end Integrity

/-! ## Announcing -/

variable [Platform]

/-- Write a header whose length counts the message so far and `n` more bytes. -/
def announce (e : Encoder) (n : Nat) : Encoder :=
  e.writeLength (UInt16.ofNat (e.stunSize.toNat + n))

/-- The two casts to 16 bits come to one. -/
theorem announce_eq (e : Encoder) (n : Nat) :
    e.announce n = e.writeLength (UInt16.ofNat (e.offset - 20 + n)) := by
  have hlength : UInt16.ofNat (e.stunSize.toNat + n) = UInt16.ofNat (e.offset - 20 + n) := by
    apply UInt16.toNat_inj.1
    simp only [stunSize, stunHeaderSize, UInt16.toNat_ofNat']
    omega
  rw [announce, hlength]

/-- A length is written with the whole header. -/
theorem writeLength_bytes (e : Encoder) (n : UInt16) :
    (e.writeLength n).buffer.bytes =
      overlay e.buffer.bytes 0 (e.writeLength n).stunHeader.bytes := rfl

@[simp] theorem writeLength_offset (e : Encoder) (n : UInt16) :
    (e.writeLength n).offset = e.offset := rfl

@[simp] theorem announce_offset (e : Encoder) (n : Nat) : (e.announce n).offset = e.offset := rfl

@[simp] theorem announce_hasMessageIntegrity (e : Encoder) (n : Nat) :
    (e.announce n).hasMessageIntegrity = e.hasMessageIntegrity := rfl

@[simp] theorem announce_hasFingerprint (e : Encoder) (n : Nat) :
    (e.announce n).hasFingerprint = e.hasFingerprint := rfl

@[simp] theorem length_writeLength (e : Encoder) (n : UInt16) :
    (e.writeLength n).buffer.bytes.length = e.buffer.bytes.length := length_overlay _ _ _

@[simp] theorem length_announce (e : Encoder) (n : Nat) :
    (e.announce n).buffer.bytes.length = e.buffer.bytes.length := length_overlay _ _ _

/-! ## The sealing adds -/

section Seals

variable {T : StunAttrType} (e : Encoder) (a : MessageIntegrityAttrT T)

/-- The HMAC is computed over the message so far under a header that counts the attribute. -/
def computed : Bool × MessageIntegrityAttrT T :=
  a.compute ((e.announce (sealSize T)).buffer.bytes.take e.offset)

/-- The encoder with a MESSAGE-INTEGRITY of the given digest appended. -/
def sign (T : StunAttrType) (digest : Bytes) : Encoder :=
  { (e.announce (sealSize T)).append (MessageIntegrityAttrT.ofHmac (T := T) digest) with
    hasMessageIntegrity := true }

/-- The add of a MESSAGE-INTEGRITY. -/
theorem addMessageIntegrity_eq :
    e.addMessageIntegrity a =
      if e.buffer.bytes.length < e.offset + sealSize T then (false, a, e)
      else if (e.computed a).1 = false then (false, a, e.announce (sealSize T))
      else (true, (e.computed a).2, e.sign T (e.computed a).2.hmac) := by
  by_cases hfit : e.buffer.bytes.length < e.offset + sealSize T
  · rw [if_pos hfit]
    exact if_pos hfit
  · have hstep : e.addMessageIntegrity a =
        (let computed := e.computed a
        let attr := computed.2
        let e := e.announce (sealSize T)
        if !computed.1 then (false, attr, e)
        else
          let written := attr.encode (sealSize T)
          let e := { e with buffer := e.buffer.storeAll e.offset written.2 }
          if !written.1 then (false, attr, e)
          else (true, attr,
            { e with hasMessageIntegrity := true, offset := e.offset + sealSize T })) :=
      if_neg hfit
    rw [if_neg hfit]
    cases hcomp : (e.computed a).1 with
    | false =>
      have hsame : (e.computed a).2 = a := MessageIntegrityAttrT.compute_eq_false hcomp
      rw [if_pos rfl, hstep]
      simp only [hcomp, hsame]
      rfl
    | true =>
      have hsize : (e.computed a).2.hmac.length = MessageIntegrityAttrT.expectedSize T :=
        (MessageIntegrityAttrT.compute_eq_true hcomp).2.1
      have henc := encode_of_hmac hsize
      have hpad := padded_of_hmac (a := .ofHmac (T := T) (e.computed a).2.hmac) hsize
      rw [if_neg (by simp), hstep]
      simp only [hcomp, henc, sign, append, hpad]
      rfl

/-- The size of a FINGERPRINT in a message. -/
def fingerprintSize : Nat := attrHeaderSize + FingerprintAttr.valueSize

theorem padded_fingerprint (a : FingerprintAttr) : padded a = fingerprintSize := by
  have hlen : a.length.toNat = 4 := rfl
  have hround : roundUp4 4 = FingerprintAttr.valueSize := rfl
  rw [fingerprintSize, ← hround, ← hlen]
  rfl

theorem valueSize_fingerprint (a : FingerprintAttr) : AttributeSpec.valueSize a = 4 :=
  a.length_wireValue

theorem encode_fingerprint (a : FingerprintAttr) :
    a.encode fingerprintSize =
      (true, memcpy 0 (writeHeader StunAttrType.fingerprint.code (UInt16.ofNat a.length.toNat)) ::
        a.body) :=
  if_neg (Nat.lt_irrefl _)

/-- The CRC is computed over the message so far under a header that counts the attribute. -/
def fingerprint : FingerprintAttr :=
  FingerprintAttr.compute ((e.announce fingerprintSize).buffer.bytes.take e.offset)

/-- The encoder with its FINGERPRINT appended. -/
def stamp : Encoder :=
  { (e.announce fingerprintSize).append e.fingerprint with hasFingerprint := true }

/-- The add of a FINGERPRINT. -/
theorem addFingerprint_eq :
    e.addFingerprint =
      if e.hasFingerprint = true ∨ e.buffer.bytes.length < e.offset + fingerprintSize then
        (false, e)
      else (true, e.stamp) := by
  by_cases hfp : e.hasFingerprint = true
  · rw [if_pos (.inl hfp)]
    exact if_pos hfp
  · by_cases hfit : e.buffer.bytes.length < e.offset + fingerprintSize
    · rw [if_pos (.inr hfit)]
      exact (if_neg hfp).trans (if_pos hfit)
    · have hstep : e.addFingerprint =
          (let written := e.fingerprint.encode fingerprintSize
          let e := e.announce fingerprintSize
          let e := { e with buffer := e.buffer.storeAll e.offset written.2 }
          if !written.1 then (false, e)
          else (true, { e with offset := e.offset + fingerprintSize, hasFingerprint := true })) :=
        (if_neg hfp).trans (if_neg hfit)
      have hpad := padded_fingerprint e.fingerprint
      have henc := encode_fingerprint e.fingerprint
      rw [hstep, if_neg (not_or.2 ⟨hfp, hfit⟩)]
      simp only [henc, stamp, append, hpad]
      rfl

end Seals

/-! ## Outcomes -/

/-- What an add can amount to: it is refused and changes nothing, it is a MESSAGE-INTEGRITY that
was announced before its digest failed, or it appends its attribute. -/
inductive Outcome (e : Encoder) : AddCall → AddResult → Encoder → Prop
  | refused {c : AddCall}
      (hfull : ∀ kind a, c = .integrity kind a →
        e.buffer.bytes.length < e.offset + sealSize kind.type) :
      Outcome e c { ok := false, attr := c.given } e
  | announced {kind : IntegrityKind} {a : kind.Obj}
      (hroom : e.offset + sealSize kind.type ≤ e.buffer.bytes.length) :
      Outcome e (.integrity kind a) { ok := false, attr := some ⟨kind, a⟩ }
        (e.announce (sealSize kind.type))
  | ordinary {a : Attr} (hroom : e.offset + padded a.obj ≤ e.buffer.bytes.length) :
      Outcome e (.ordinary a) { ok := true } (e.append a.obj)
  | integrity {kind : IntegrityKind} {a : kind.Obj} {digest : Bytes}
      (hroom : e.offset + sealSize kind.type ≤ e.buffer.bytes.length)
      (hdigest : Platform.hmac (MessageIntegrityAttrT.md kind.type) a.key
        ((e.announce (sealSize kind.type)).buffer.bytes.take e.offset) = some digest)
      (hsize : digest.length = kind.expectedSize) :
      Outcome e (.integrity kind a) { ok := true, attr := some ⟨kind, { a with hmac := digest }⟩ }
        (e.sign kind.type digest)
  | fingerprint (hroom : e.offset + fingerprintSize ≤ e.buffer.bytes.length)
      (hfirst : e.hasFingerprint = false) :
      Outcome e .fingerprint { ok := true } e.stamp

theorem add_outcome (e : Encoder) (c : AddCall) : Outcome e c (e.add c).1 (e.add c).2 := by
  cases c with
  | ordinary a =>
    simp only [add, addAttribute_eq e a.ready]
    by_cases h : e.offset + padded a.obj ≤ e.buffer.bytes.length ∧
        AttributeSpec.room a.obj ≤ padded a.obj
    · rw [if_pos h]
      exact .ordinary h.1
    · rw [if_neg h]
      refine .refused (c := .ordinary a) ?_
      intro kind' a' hc
      cases hc
  | integrity kind a =>
    simp only [add, addMessageIntegrity_eq]
    by_cases hfit : e.buffer.bytes.length < e.offset + sealSize kind.type
    · rw [if_pos hfit]
      refine .refused (c := .integrity kind a) ?_
      intro kind' a' hc
      cases hc
      exact hfit
    · rw [if_neg hfit]
      have hroom : e.offset + sealSize kind.type ≤ e.buffer.bytes.length := by omega
      cases hcomp : (e.computed a).1 with
      | false =>
        rw [if_pos rfl]
        exact .announced hroom
      | true =>
        obtain ⟨hdigest, hsize, hkey⟩ := MessageIntegrityAttrT.compute_eq_true hcomp
        have hobj : (e.computed a).2 = { a with hmac := (e.computed a).2.hmac } := by
          rw [← hkey]
          rfl
        rw [if_neg (by simp), hobj]
        exact .integrity hroom hdigest hsize
  | fingerprint =>
    simp only [add, addFingerprint_eq]
    by_cases h : e.hasFingerprint = true ∨ e.buffer.bytes.length < e.offset + fingerprintSize
    · rw [if_pos h]
      refine .refused (c := .fingerprint) ?_
      intro kind a hc
      cases hc
    · rw [if_neg h]
      obtain ⟨hfirst, hroom⟩ := not_or.1 h
      exact .fingerprint (by omega) (by simpa using hfirst)

end Encoder

end Stunxx
