import Stunxx.Verify.Capacity
import Stunxx.Verify.Framing
import Stunxx.Verify.Reading
import Stunxx.Verify.UnknownResponse

/-!
# Decoding and encoding again

A message whose attributes were decoded can be encoded again from the objects, under the same type
and transaction ID. Every value that a class decoded is one it encodes and is no longer than it was,
so this never fails for lack of room (`run_ordinary`). What comes out is a message of the same
objects: the lookups of every ordinary class find what they found before, in whatever order the
classes were collected. It is the same message, byte for byte, exactly when the first one was
written the way the classes write.
-/

namespace Stunxx

open Overlay Machine Tlv

theorem roundUp4_le_roundUp4 {m n : Nat} (h : m ≤ n) : roundUp4 m ≤ roundUp4 n := by
  unfold roundUp4
  omega

/-! ## Attributes that fit -/

section Fit

variable [Platform]

namespace Attr

/-- The size of an attribute in a message. -/
def size (a : Attr) : Nat := attrHeaderSize + roundUp4 a.valueSize

/-- The attribute on the wire, as its class writes it. -/
def record (a : Attr) : WireAttr :=
  ⟨a.cls.type.code, AttributeSpec.wireValue a.obj, padding (AttributeSpec.wireValue a.obj).length⟩

variable {a : Attr}

theorem length_wireValue (a : Attr) : (AttributeSpec.wireValue a.obj).length = a.valueSize :=
  AttributeSpec.length_wireValue a.obj a.ready

theorem full_record (h : a.valueSize ≤ 65535) : Full stunFormat a.record where
  value_lt := (length_wireValue a).trans_lt (Nat.lt_succ_of_le h)
  padding_eq := length_padding _

theorem stride_record (a : Attr) : stride stunFormat a.record = a.size := by
  rw [stride_stunFormat, size, ← length_wireValue]
  rfl

theorem slot_eq_wire (h : a.valueSize ≤ 65535) : Encoder.slot a.obj = wire stunFormat a.record := by
  have hlen : StunAttribute.length a.obj = a.record.value.length :=
    (Encoder.length_of_lt a.ready (Nat.lt_succ_of_le h)).trans (length_wireValue a).symm
  rw [Encoder.slot, hlen, ← List.append_assoc]
  rfl

end Attr

/-- The sizes of attributes are the strides of their records. -/
theorem sum_stride_record (attrs : List Attr) :
    ((attrs.map Attr.record).map (stride stunFormat)).sum = (attrs.map Attr.size).sum := by
  rw [List.map_map]
  congr 1
  exact List.map_congr_left fun a _ => a.stride_record

namespace Encoder

variable {type : UInt16} {tid : TransactionId} {size : Nat} {e : Encoder} {attrs : List Attr}

/-- Attributes that fit are all accepted, and lie behind the message so far as their classes write
them. -/
theorem run_ordinary (h : Inv type tid size e) (hvalue : ∀ a ∈ attrs, a.valueSize ≤ 65535)
    (hroom : e.totalSize + (attrs.map Attr.size).sum ≤ size) :
    (∀ r ∈ (run add e (attrs.map .ordinary)).1, r.ok = true) ∧
    (run add e (attrs.map .ordinary)).2.offset = e.offset + (attrs.map Attr.size).sum ∧
    slice (run add e (attrs.map .ordinary)).2.buffer.bytes 20
        ((run add e (attrs.map .ordinary)).2.offset - 20) =
      slice e.buffer.bytes 20 (e.offset - 20) ++
        (attrs.map Attr.record).flatMap (wire stunFormat) := by
  induction attrs generalizing e with
  | nil =>
    refine ⟨fun r hr => absurd hr List.not_mem_nil, rfl, ?_⟩
    exact (List.append_nil _).symm
  | cons a attrs ih =>
    rw [List.map_cons, List.sum_cons, totalSize] at hroom
    have hlen := h.length_eq
    have hfit := hvalue a List.mem_cons_self
    obtain ⟨hadd, hslot, hoffset⟩ := addAttribute_of_room e hfit (by
      rw [Attr.size, attrHeaderSize] at hroom
      omega)
    have hstep : e.add (.ordinary a) = ({ ok := true }, e.append a.obj) := by
      simp only [add, hadd]
    have hsize : (e.append a.obj).offset = e.offset + a.size := hoffset
    obtain ⟨hok, hend, hslice⟩ := ih (e := e.append a.obj)
      (h.append a.obj (by rwa [← hlen])) (fun b hb => hvalue b (List.mem_cons_of_mem a hb))
      (by rw [totalSize, hsize]; omega)
    rw [List.map_cons, run_cons, hstep]
    refine ⟨List.forall_mem_cons.2 ⟨rfl, hok⟩, ?_, ?_⟩
    · rw [List.map_cons, List.sum_cons, ← Nat.add_assoc, ← hsize]
      exact hend
    · have hself := slice_append_slot e a.ready (Nat.lt_succ_of_le hfit) hslot h.le_offset
      rw [List.map_cons, List.flatMap_cons, ← List.append_assoc, ← Attr.slot_eq_wire hfit, ← hself]
      exact hslice

/-- A message of attributes that fit is these attributes under their header. -/
theorem message_ordinary (type : UInt16) (tid : TransactionId) {buffer : Bytes}
    (hvalue : ∀ a ∈ attrs, a.valueSize ≤ 65535)
    (hroom : 20 + (attrs.map Attr.size).sum ≤ buffer.length) :
    (∀ r ∈ (run add (new type tid buffer) (attrs.map .ordinary)).1, r.ok = true) ∧
    (run add (new type tid buffer) (attrs.map .ordinary)).2.message =
      StunHeader.wire ⟨type, UInt16.ofNat (attrs.map Attr.size).sum, magicCookie, tid⟩ ++
        (attrs.map Attr.record).flatMap (wire stunFormat) := by
  obtain ⟨hok, hoffset, hslice⟩ := run_ordinary (inv_new type tid buffer) hvalue hroom
  refine ⟨hok, ?_⟩
  have hsent := sent_run type tid buffer hok
  have hopen : ¬(run add (new type tid buffer) (attrs.map .ordinary)).2.Sealed := by
    rw [run_ordinary_sealed_iff]
    rintro (h | h) <;> cases h
  generalize (run add (new type tid buffer) (attrs.map .ordinary)).2 = e at *
  have hoff := hsent.le_offset
  have hsum : e.offset - 20 = (attrs.map Attr.size).sum := by
    rw [hoffset]
    exact Nat.add_sub_cancel_left 20 _
  have hbehind : slice e.finalize.buffer.bytes 20 (e.offset - 20) =
      (attrs.map Attr.record).flatMap (wire stunFormat) :=
    ((extends_finalize e).slice_eq (Nat.le_refl _) (by omega)).trans hslice
  rw [message, finalize_totalSize, take_eq_append_slice _ hoff, hbehind,
    hsent.finalize_header (by omega) (.inl hopen), hsum]

end Encoder

/-- It is in the grammar, if its length can be written. -/
theorem grammar_ordinary (type : UInt16) (tid : TransactionId) {attrs : List Attr}
    (hvalue : ∀ a ∈ attrs, a.valueSize ≤ 65535) (hbound : (attrs.map Attr.size).sum ≤ 65535) :
    Grammar (StunHeader.wire ⟨type, UInt16.ofNat (attrs.map Attr.size).sum, magicCookie, tid⟩ ++
        (attrs.map Attr.record).flatMap (wire stunFormat))
      ⟨type, UInt16.ofNat (attrs.map Attr.size).sum, magicCookie, tid⟩ (attrs.map Attr.record) := by
  have hfull : ∀ r ∈ attrs.map Attr.record, Full stunFormat r := by
    intro r hr
    obtain ⟨a, ha, rfl⟩ := List.mem_map.1 hr
    exact Attr.full_record (hvalue a ha)
  refine Grammar.of_wire rfl hfull ?_
  rw [length_flatMap_wire stunFormat hfull, sum_stride_record, UInt16.toNat_ofNat',
    Nat.mod_eq_of_lt (by omega)]

/-- A receiver reads the attributes that it has the classes of, in their limits. -/
theorem readsAs_record {tid : TransactionId} {attrs : List Attr}
    (hlimits : ∀ a ∈ attrs, a.InLimits tid ∧ a.valueSize ≤ 65535) :
    ReadsAs tid (attrs.map Attr.record) attrs := by
  rw [ReadsAs, List.map_map]
  apply List.map_congr_left
  intro a ha
  obtain ⟨hin, hsize⟩ := hlimits a ha
  refine Attr.read_eq_some_iff.2 (valueOf_eq_some_iff.2 ⟨rfl, ?_⟩)
  exact AttributeSpec.decode_wireValue tid a.obj hin (Nat.lt_succ_of_le hsize)

end Fit

/-! ## The objects of a message -/

theorem Attr.eq_of_as? {a b : Attr} (h : b.as? a.cls = some a.obj) : b = a := by
  obtain ⟨cls, hord, obj⟩ := a
  by_cases hcls : b.cls = cls
  · subst hcls
    have hobj : some b.obj = some obj := b.as?_self.symm.trans h
    cases hobj
    rfl
  · rw [Attr.as?_of_ne hcls] at h
    cases h

/-- Lists with the same attributes of every class, in the same order, have the same attributes. -/
theorem Attr.perm_of_as? {as bs : List Attr}
    (h : ∀ c : AttrClass, c.isOrdinary = true →
      as.filterMap (Attr.as? c) = bs.filterMap (Attr.as? c)) :
    as.Perm bs := by
  induction as generalizing bs with
  | nil =>
    cases bs with
    | nil => exact .nil
    | cons b bs =>
      have hb := h b.cls b.ordinary
      rw [List.filterMap_cons_some b.as?_self] at hb
      cases hb
  | cons a as ih =>
    have ha := (h a.cls a.ordinary).symm
    rw [List.filterMap_cons_some a.as?_self, List.filterMap_eq_cons_iff] at ha
    -- the first attribute of its class in the other list is this one
    obtain ⟨pre, b, post, rfl, hpre, hb, hpost⟩ := ha
    obtain rfl : b = a := Attr.eq_of_as? hb
    refine (List.Perm.cons b (ih fun c hord => ?_)).trans List.perm_middle.symm
    by_cases hcls : b.cls = c
    · subst hcls
      rw [List.filterMap_append, List.filterMap_eq_nil_iff.2 hpre, List.nil_append, hpost]
    · have hc := h c hord
      rwa [List.filterMap_cons_none (Attr.as?_of_ne hcls), List.filterMap_append,
        List.filterMap_cons_none (Attr.as?_of_ne hcls), ← List.filterMap_append] at hc

section Objects

variable [Platform] {message buffer : Bytes} {h : StunHeader} {rs : List WireAttr} {d : Decoder}
  {attrs : List Attr}

/-- The attributes `attrs` are those that the lookups of `d` deliver, class by class. -/
def Decoder.Collects (d : Decoder) (attrs : List Attr) : Prop :=
  ∀ c : AttrClass, c.isOrdinary = true → attrs.filterMap (Attr.as? c) = d.getAttributes c.Obj

/-- What is collected is what the message is read as, in some order. -/
theorem Decoder.Collects.perm (hg : Grammar message h rs)
    (hcollects : (parsed message h rs).Collects attrs) :
    attrs.Perm (rs.filterMap (Attr.read h.transactionId)) := by
  apply Attr.perm_of_as?
  intro c hord
  rw [hcollects c hord, getAttributes_parsed c.Obj hg, valuesOf_read hord]

/-- What a message is read as is one way to collect it. -/
theorem Decoder.collects_read (hg : Grammar message h rs) :
    (parsed message h rs).Collects (rs.filterMap (Attr.read h.transactionId)) := by
  intro c hord
  rw [getAttributes_parsed c.Obj hg, valuesOf_read hord]

/-- The objects read from records take no more room than the records. -/
theorem sum_size_read_le (tid : TransactionId) (rs : List WireAttr) :
    ((rs.filterMap (Attr.read tid)).map Attr.size).sum ≤ (rs.map (stride stunFormat)).sum := by
  induction rs with
  | nil => exact Nat.le_refl 0
  | cons r rs ih =>
    rw [List.map_cons, List.sum_cons]
    cases hread : Attr.read tid r with
    | none =>
      rw [List.filterMap_cons_none hread]
      exact Nat.le_add_left_of_le ih
    | some a =>
      have hround := roundUp4_le_roundUp4 (Attr.limits_of_read hread).2
      rw [List.filterMap_cons_some hread, List.map_cons, List.sum_cons, stride_stunFormat,
        Attr.size]
      omega

omit [Platform] in
/-- The attributes of a message take at most its length, rounded up. -/
theorem Grammar.sum_stride_le (hg : Grammar message h rs) :
    (rs.map (stride stunFormat)).sum ≤ roundUp4 h.msgLength.toNat := by
  have hpad : ∀ n, stunFormat.pad n < 4 := by
    intro n
    have hlt := roundUp4_lt n
    rw [pad_stunFormat]
    omega
  obtain ⟨-, hnear⟩ := hg.tiling.sum_stride_near stunFormat (Nat.le_refl 4) hpad
  obtain ⟨k, hk⟩ := Decoder.four_dvd_sum_stride rs
  rw [hg.length_attrBytes, hk] at hnear
  rw [hk, roundUp4]
  omega

/-- The limits and the room of what is read from a message. -/
structure Fits (h : StunHeader) (attrs : List Attr) : Prop where
  limits : ∀ a ∈ attrs, a.InLimits h.transactionId ∧ a.valueSize ≤ 65535
  sum_le : (attrs.map Attr.size).sum ≤ roundUp4 h.msgLength.toNat

theorem fits_read (hg : Grammar message h rs) :
    Fits h (rs.filterMap (Attr.read h.transactionId)) where
  limits a ha := by
    obtain ⟨r, hr, hread⟩ := List.mem_filterMap.1 ha
    obtain ⟨hin, hsize⟩ := Attr.limits_of_read hread
    exact ⟨hin, hsize.trans (Nat.le_of_lt_succ (hg.value_lt r hr))⟩
  sum_le := (sum_size_read_le _ rs).trans hg.sum_stride_le

theorem Fits.perm {bs : List Attr} (hfits : Fits h bs) (hperm : attrs.Perm bs) : Fits h attrs where
  limits a ha := hfits.limits a (hperm.mem_iff.1 ha)
  sum_le := by
    rw [(hperm.map Attr.size).sum_eq]
    exact hfits.sum_le

/-! ## Encoding them again -/

/-- The objects `attrs` of a message, added to an encoder of its type and transaction ID. -/
def Decoder.reencode (d : Decoder) (attrs : List Attr) (buffer : Bytes) :
    List AddResult × Encoder :=
  run Encoder.add (Encoder.new d.stunHeader.msgType d.transactionId buffer) (attrs.map .ordinary)

/-- The header of a message that is encoded again. -/
def reencodedHeader (h : StunHeader) (attrs : List Attr) : StunHeader :=
  { h with msgLength := UInt16.ofNat (attrs.map Attr.size).sum, magicCookie := magicCookie }

section Reencoded

variable (message rs) (hfits : Fits h attrs) (hlength : h.msgLength.toNat ≤ 65532)
  (hroom : 20 + roundUp4 h.msgLength.toNat ≤ buffer.length)

include hfits hroom

theorem reencode_message :
    (∀ r ∈ ((Decoder.parsed message h rs).reencode attrs buffer).1, r.ok = true) ∧
      ((Decoder.parsed message h rs).reencode attrs buffer).2.message =
        (reencodedHeader h attrs).wire ++ (attrs.map Attr.record).flatMap (wire stunFormat) :=
  Encoder.message_ordinary h.msgType h.transactionId (fun a ha => (hfits.limits a ha).2)
    (Nat.le_trans (Nat.add_le_add_left hfits.sum_le 20) hroom)

include hlength

theorem reencode_grammar :
    Grammar ((Decoder.parsed message h rs).reencode attrs buffer).2.message
      (reencodedHeader h attrs) (attrs.map Attr.record) := by
  have hround : roundUp4 h.msgLength.toNat ≤ 65532 := by
    unfold roundUp4
    omega
  rw [(reencode_message message rs hfits hroom).2]
  exact grammar_ordinary h.msgType h.transactionId (fun a ha => (hfits.limits a ha).2)
    (hfits.sum_le.trans (by omega))

end Reencoded

/-- A receiver knows the types of all classes. -/
theorem unknownTypes_record (attrs : List Attr) : unknownTypes (attrs.map Attr.record) = [] := by
  rw [unknownTypes, List.map_map, List.filter_eq_nil_iff]
  intro t ht
  obtain ⟨a, -, rfl⟩ := List.mem_map.1 ht
  have hknown : isKnownAttrType (a.record.tag) = true := isKnownAttrType_code _
  simp only [Function.comp_apply, hknown, Bool.not_true, Bool.and_false, Bool.false_eq_true,
    not_false_eq_true]

/-- **Decoded objects can be sent on**: whatever a message delivers is accepted by an encoder of its
type and transaction ID, collected in any order of the classes, and its receiver finds for every
ordinary class what was found in the first message. A lookup of one finds the first that was
decoded. -/
theorem Decoder.reencode_delivers (hparse : parse message = .ok (some d))
    (hlength : d.messageLength.toNat ≤ 65532) (hcollects : d.Collects attrs)
    (hroom : 20 + roundUp4 d.messageLength.toNat ≤ buffer.length) :
    (∀ r ∈ (d.reencode attrs buffer).1, r.ok = true) ∧
      ∃ e, parse (d.reencode attrs buffer).2.message = .ok (some e) ∧
        e.stunHeader.msgType = d.stunHeader.msgType ∧ e.transactionId = d.transactionId ∧
        e.unknownRequired = [] ∧
        ∀ c : AttrClass, c.isOrdinary = true →
          e.getAttributes c.Obj = d.getAttributes c.Obj ∧
            e.getAttribute c.Obj = (d.getAttributes c.Obj).head? := by
  obtain ⟨h, rs, hg, rfl⟩ := parse_eq_some_iff.1 hparse
  have hfits := (fits_read hg).perm (hcollects.perm hg)
  have hgrammar := reencode_grammar message rs hfits hlength hroom
  refine ⟨(reencode_message message rs hfits hroom).1, _,
    parse_eq_some_iff.2 ⟨_, _, hgrammar, rfl⟩, rfl, rfl, unknownTypes_record attrs, ?_⟩
  intro c hord
  have hreads : ReadsAs (reencodedHeader h attrs).transactionId (attrs.map Attr.record) attrs :=
    readsAs_record hfits.limits
  obtain ⟨hall, hfirst⟩ := getAttributes_reads hgrammar hreads hord
  rw [hall, hfirst, hcollects c hord]
  exact ⟨rfl, rfl⟩

/-! ## The same bytes again -/

/-- The attribute on the wire is what its class writes: its value, and zeros behind it. -/
structure Canonical (r : WireAttr) (a : Attr) : Prop where
  value : r.value = AttributeSpec.wireValue a.obj
  padding : r.padding = padding r.value.length

theorem canonical_iff {tid : TransactionId} {r : WireAttr} {a : Attr}
    (hread : Attr.read tid r = some a) : Canonical r a ↔ r = a.record := by
  have htag := (valueOf_eq_some_iff.1 (Attr.read_eq_some_iff.1 hread)).1
  obtain ⟨tag, value, pad⟩ := r
  constructor
  · rintro ⟨hvalue, hpadding⟩
    obtain rfl : tag = (StunAttribute.type a.cls.Obj).code := htag
    obtain rfl : value = AttributeSpec.wireValue a.obj := hvalue
    obtain rfl : pad = padding (AttributeSpec.wireValue a.obj).length := hpadding
    rfl
  · intro heq
    cases heq
    exact ⟨rfl, rfl⟩

/-- Records that are read as attributes are canonical when they are the attributes' own. -/
theorem forall₂_canonical_iff {tid : TransactionId} (hreads : ReadsAs tid rs attrs) :
    List.Forall₂ Canonical rs attrs ↔ rs = attrs.map Attr.record := by
  induction rs generalizing attrs with
  | nil =>
    cases attrs with
    | nil => exact iff_of_true .nil rfl
    | cons => cases hreads
  | cons r rs ih =>
    cases attrs with
    | nil => cases hreads
    | cons a attrs =>
      obtain ⟨hhead, htail⟩ := List.cons_eq_cons.1 hreads
      rw [List.forall₂_cons, List.map_cons, List.cons_eq_cons, canonical_iff hhead, ih htail]

/-- A message is its attributes' own records under its header, exactly when its records are these
and nothing is left over. -/
theorem take_eq_iff (hg : Grammar message h rs) (hfits : Fits h attrs)
    (hlength : h.msgLength.toNat ≤ 65532) :
    (reencodedHeader h attrs).wire ++ (attrs.map Attr.record).flatMap (wire stunFormat) =
        message.take (20 + h.msgLength.toNat) ↔
      4 ∣ h.msgLength.toNat ∧ rs = attrs.map Attr.record := by
  have hfull : ∀ r ∈ attrs.map Attr.record, Full stunFormat r := by
    intro r hr
    obtain ⟨a, ha, rfl⟩ := List.mem_map.1 hr
    exact Attr.full_record (hfits.limits a ha).2
  have hsum := length_flatMap_wire stunFormat hfull
  obtain ⟨k, hk⟩ := Decoder.four_dvd_sum_stride (attrs.map Attr.record)
  have hattrs := hg.length_attrBytes
  have hsplit : message.take (20 + h.msgLength.toNat) = h.wire ++ attrBytes message h := by
    rw [List.take_add, hg.take_eq]
    rfl
  rw [hsplit]
  constructor
  · intro heq
    obtain ⟨-, hbytes⟩ := List.append_inj heq (by simp only [StunHeader.length_wire])
    have htiling := tiling_flatMap stunFormat hfull
    rw [hbytes] at htiling
    rw [← hbytes, hsum, hk] at hattrs
    exact ⟨⟨k, hattrs.symm⟩, hg.tiling.unique stunFormat htiling⟩
  · rintro ⟨⟨j, hj⟩, rfl⟩
    obtain ⟨rest, hbytes, hrest⟩ := hg.tiling.exists_rest stunFormat hfull
    rw [hbytes, List.length_append, hsum, hk] at hattrs
    rw [headSize_stunFormat] at hrest
    obtain rfl : rest = [] := List.length_eq_zero_iff.1 (by omega)
    have hlen : UInt16.ofNat (attrs.map Attr.size).sum = h.msgLength := by
      rw [← sum_stride_record, hk]
      apply UInt16.toNat_inj.1
      rw [UInt16.toNat_ofNat']
      simp only [List.length_nil] at hattrs
      omega
    have hheader : reencodedHeader h attrs = h := by
      rw [reencodedHeader, hlen, ← hg.cookie]
    rw [hheader, hbytes, List.append_nil]

/-- **Decoding and encoding is a normal form**: where every attribute of a message is read, the
message encoded again is read as the same attributes, encoding those again changes nothing, and it
is the first message, byte for byte, exactly when that had a multiple of four bytes and every
attribute was written as its class writes it. -/
theorem Decoder.reencode_eq_iff (hparse : parse message = .ok (some d))
    (hlength : d.messageLength.toNat ≤ 65532)
    (hreads : ReadsAs d.transactionId (attrsRead message d.stunHeader) attrs)
    (hroom : 20 + roundUp4 d.messageLength.toNat ≤ buffer.length) :
    (∃ e, parse (d.reencode attrs buffer).2.message = .ok (some e) ∧
      ReadsAs e.transactionId (attrsRead (d.reencode attrs buffer).2.message e.stunHeader) attrs ∧
      ∀ again : Bytes, 20 + roundUp4 e.messageLength.toNat ≤ again.length →
        (e.reencode attrs again).2.message = (d.reencode attrs buffer).2.message) ∧
    ((d.reencode attrs buffer).2.message = message.take (20 + d.messageLength.toNat) ↔
      4 ∣ d.messageLength.toNat ∧
        List.Forall₂ Canonical (attrsRead message d.stunHeader) attrs) := by
  obtain ⟨h, rs, hg, rfl⟩ := parse_eq_some_iff.1 hparse
  have hrs : attrsRead message (parsed message h rs).stunHeader = rs := hg.attrsRead_eq
  rw [hrs] at hreads ⊢
  have hfits : Fits h attrs := by
    rw [← hreads.filterMap_eq]
    exact fits_read hg
  have hmessage := (reencode_message message rs hfits hroom).2
  have hgrammar := reencode_grammar message rs hfits hlength hroom
  have hagain : ReadsAs (reencodedHeader h attrs).transactionId (attrs.map Attr.record) attrs :=
    readsAs_record hfits.limits
  constructor
  · refine ⟨_, parse_eq_some_iff.2 ⟨_, _, hgrammar, rfl⟩, ?_, ?_⟩
    · have hread : attrsRead _ (reencodedHeader h attrs) = attrs.map Attr.record :=
        hgrammar.attrsRead_eq
      exact hread.symm ▸ hagain
    · intro again hspace
      have hfits' := fits_read hgrammar
      rw [hagain.filterMap_eq] at hfits'
      rw [(reencode_message _ _ hfits' hspace).2, hmessage]
      rfl
  · rw [hmessage, forall₂_canonical_iff hreads]
    exact take_eq_iff hg hfits hlength

end Objects

/-! The Binding request with one PRIORITY. -/

local instance reencodingHost : Platform := .ofDigest []

theorem Decoder.reencode_delivers_priority :
    ((parsed priorityMessage priorityHeader priorityAttrs).reencode
      [⟨.priority, rfl, ⟨7⟩⟩] (List.replicate 28 0)).1.all AddResult.ok = true :=
  List.all_eq_true.2 (reencode_delivers parse_priorityMessage (by decide)
    (collects_read priorityMessage_grammar) (by decide)).1

theorem Decoder.reencode_eq_iff_priority :
    ((parsed priorityMessage priorityHeader priorityAttrs).reencode [⟨.priority, rfl, ⟨7⟩⟩]
        (List.replicate 28 0)).2.message = priorityMessage.take 28 ↔
      4 ∣ 8 ∧ List.Forall₂ Canonical priorityAttrs [⟨.priority, rfl, ⟨7⟩⟩] := by
  have hrs : attrsRead priorityMessage priorityHeader = priorityAttrs :=
    priorityMessage_grammar.attrsRead_eq
  have hread : ReadsAs (ByteArrayN.zero 12) priorityAttrs [⟨.priority, rfl, ⟨7⟩⟩] := rfl
  have h := (@reencode_eq_iff _ _ (List.replicate 28 0) _ _ parse_priorityMessage (by decide)
    (hrs.symm ▸ hread) (by decide)).2
  exact hrs ▸ h

end Stunxx
