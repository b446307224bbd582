import Stunxx.Verify.DecodeLoop

/-!
# Lookups in a decoded message

On a decoder that holds the attributes `rs` of a message, the typed lookups are the first, and all,
of the values of the type's code that the class decodes (`getAttribute_parsed`,
`getAttributes_parsed`): the bound checks of the lookups never fire, since the headers come from the
walk. The table itself holds ten headers besides those of the message; they have type zero, which
is the code of no class, and lookups by raw code see them exactly at zero.
-/

namespace Stunxx

open Overlay Tlv

namespace Decoder

/-! ## The headers name the values -/

section Headers

variable {buffer : Bytes} {h : StunHeader}

/-- The values that `decode` reads lie inside the message. -/
theorem header_le_of_framed (hf : Framed buffer h) {hd : AttrHeader}
    (hmem : hd ∈ wireHeaders 20 (attrsRead buffer h)) :
    hd.offset + hd.len.toNat ≤ 20 + h.msgLength.toNat := by
  obtain ⟨p, hp, -, hlen, hoff⟩ := mem_wireHeaders (fun _ => walk_value_lt stunFormat) hmem
  rw [hoff, hlen, ← hf.length_attrBytes]
  exact walk_place_le stunFormat (attrBytes buffer h) hp

/-- The headers, with the bytes the buffer holds at their places, are the attributes. -/
theorem headers_read (hf : Framed buffer h) :
    (wireHeaders 20 (attrsRead buffer h)).map
        (fun hd => (hd.type, slice buffer hd.offset hd.len.toNat)) =
      (attrsRead buffer h).map fun r => (r.tag, r.value) := by
  have hroom := hf.room
  have hlen : (buffer.take 20).length = 20 := by
    rw [List.length_take]
    omega
  have hread := walk_read stunFormat (attrBytes buffer h) (buffer.take 20)
  have hsplit : buffer.take 20 ++ attrBytes buffer h =
      buffer.take (20 + h.msgLength.toNat) := List.take_add.symm
  rw [hlen, hsplit] at hread
  rw [attrsRead, ← hread, wireHeaders, List.map_map]
  apply List.map_congr_left
  intro p hp
  have hin := walk_place_le stunFormat (attrBytes buffer h) hp
  have hlt := h.msgLength.toNat_lt
  have hoff := le_off_of_mem_layout stunFormat hp
  rw [hf.length_attrBytes] at hin
  have hcast : (UInt16.ofNat p.len).toNat = p.len := by
    rw [UInt16.toNat_ofNat', Nat.mod_eq_of_lt (by omega)]
  simp only [Function.comp_apply, AttrHeader.ofPlace, hcast]
  rw [slice_take buffer hin]

/-- The headers of a type, with the bytes at their places, are the attributes of the type. -/
theorem filter_headers_read (hf : Framed buffer h) (t : UInt16) :
    ((wireHeaders 20 (attrsRead buffer h)).filter fun hd => hd.type == t).map
        (fun hd => (hd.type, slice buffer hd.offset hd.len.toNat)) =
      ((attrsRead buffer h).filter fun r => r.tag == t).map fun r => (r.tag, r.value) := by
  have hread := congrArg (List.filter fun p : UInt16 × Bytes => p.1 == t) (headers_read hf)
  rw [List.filter_map, List.filter_map] at hread
  exact hread

end Headers

/-! ## Typed lookups -/

section Typed

variable (α : Type) [StunAttribute α]

/-- The values of a class among the attributes of a message. -/
def valuesOf (tid : TransactionId) (rs : List WireAttr) : List α :=
  (rs.filter fun r => r.tag == (StunAttribute.type α).code).filterMap
    fun r => StunAttribute.decode tid r.value

/-- What a class makes of the bytes at a header. -/
def valueAt (tid : TransactionId) (buffer : Bytes) (hd : AttrHeader) : Option α :=
  StunAttribute.decode tid (slice buffer hd.offset hd.len.toNat)

/-- The loop of `getAttributes` over headers that lie in the buffer. -/
theorem getAttributesLoop_eq (d : Decoder) (result : List α) {hs : List AttrHeader}
    (hin : ∀ hd ∈ hs, hd.offset + hd.len.toNat ≤ d.buffer.length) :
    d.getAttributesLoop α result hs =
      result ++ hs.filterMap (valueAt α d.transactionId d.buffer) := by
  induction hs generalizing result with
  | nil => rw [getAttributesLoop, List.filterMap_nil, List.append_nil]
  | cons hd hs ih =>
    have hhead := hin hd List.mem_cons_self
    have hrest := fun result => ih result fun q hq => hin q (List.mem_cons_of_mem hd hq)
    have hvalue : valueAt α d.transactionId d.buffer hd =
        StunAttribute.decode d.transactionId (slice d.buffer hd.offset hd.len.toNat) := rfl
    rw [getAttributesLoop, if_neg (by omega), ← hvalue]
    cases hdec : valueAt α d.transactionId d.buffer hd with
    | none => simp only [hrest, List.filterMap_cons, hdec]
    | some a =>
      simp only [hrest, List.filterMap_cons, hdec, List.append_assoc, List.singleton_append]

section Range

variable {d : Decoder} {hs : List AttrHeader}
  (hne : ¬d.buffer.isEmpty = true)
  (hrange : d.attributes.range (StunAttribute.type α).code = hs)
  (hin : ∀ hd ∈ hs, hd.offset + hd.len.toNat ≤ d.buffer.length)

include hne hrange hin

/-- `getAttributes` of a decoder whose headers of the class lie in the buffer. -/
theorem getAttributes_of_range :
    d.getAttributes α = hs.filterMap (valueAt α d.transactionId d.buffer) := by
  rw [getAttributes, if_neg hne, hrange, getAttributesLoop_eq α d [] hin, List.nil_append]

/-- `getAttribute` of such a decoder. -/
theorem getAttribute_of_range :
    d.getAttribute α = hs.head?.bind (valueAt α d.transactionId d.buffer) := by
  rw [getAttribute, if_neg hne, AttributeTable.get_eq_head, hrange]
  cases hhead : hs.head? with
  | none => rfl
  | some hd =>
    have hle := hin hd (List.mem_of_head? hhead)
    exact if_neg (Nat.not_lt.2 hle)

end Range

variable {buffer : Bytes} {h : StunHeader} {rs : List WireAttr}

theorem buffer_ne_empty (hf : Framed buffer h) : ¬buffer.isEmpty = true := by
  intro hempty
  have hroom := hf.room
  have hnil : buffer = [] := List.isEmpty_iff.1 hempty
  rw [hnil, List.length_nil] at hroom
  omega

/-- The headers of a class on the wire. -/
def headersOf (buffer : Bytes) (h : StunHeader) : List AttrHeader :=
  (wireHeaders 20 (attrsRead buffer h)).filter fun hd => hd.type == (StunAttribute.type α).code

theorem headersOf_le (hf : Framed buffer h) :
    ∀ hd ∈ headersOf α buffer h, hd.offset + hd.len.toNat ≤ buffer.length := by
  intro hd hmem
  exact (header_le_of_framed hf (List.mem_of_mem_filter hmem)).trans hf.room

/-- The headers of a class deliver the values of the class. -/
theorem filterMap_headersOf (hf : Framed buffer h) :
    (headersOf α buffer h).filterMap (valueAt α h.transactionId buffer) =
      valuesOf α h.transactionId (attrsRead buffer h) := by
  have hread := congrArg (List.filterMap fun p : UInt16 × Bytes =>
    StunAttribute.decode (α := α) h.transactionId p.2)
    (filter_headers_read hf (StunAttribute.type α).code)
  rw [List.filterMap_map, List.filterMap_map] at hread
  exact hread

/-- The first header of a class delivers the first value. -/
theorem head?_headersOf (hf : Framed buffer h) :
    (headersOf α buffer h).head?.bind (valueAt α h.transactionId buffer) =
      ((attrsRead buffer h).find? fun r => r.tag == (StunAttribute.type α).code).bind
        fun r => StunAttribute.decode h.transactionId r.value := by
  have hread := congrArg (fun l => l.head?.bind fun p : UInt16 × Bytes =>
    StunAttribute.decode (α := α) h.transactionId p.2)
    (filter_headers_read hf (StunAttribute.type α).code)
  simp only [List.head?_map, Option.bind_map, List.head?_filter] at hread
  rw [headersOf, List.head?_filter]
  exact hread

theorem range_parsed (hg : Grammar buffer h rs) :
    (parsed buffer h rs).attributes.range (StunAttribute.type α).code = headersOf α buffer h := by
  rw [parsed, AttributeTable.range_append_new, if_neg (StunAttrType.code_ne_zero _),
    List.nil_append, headersOf, hg.attrsRead_eq]

/-- **`getAttributes` of a message**: the values its attributes of the type decode to, in order. -/
theorem getAttributes_parsed (hg : Grammar buffer h rs) :
    (parsed buffer h rs).getAttributes α = valuesOf α h.transactionId rs := by
  have hf := hg.toFramed
  have hall := getAttributes_of_range α (buffer_ne_empty hf) (range_parsed α hg)
    (headersOf_le α hf)
  rw [← hg.attrsRead_eq, ← filterMap_headersOf α hf]
  rwa [hg.attrsRead_eq]

/-- **`getAttribute` of a message**: what its first attribute of the type decodes to. -/
theorem getAttribute_parsed (hg : Grammar buffer h rs) :
    (parsed buffer h rs).getAttribute α =
      (rs.find? fun r => r.tag == (StunAttribute.type α).code).bind
        fun r => StunAttribute.decode h.transactionId r.value := by
  have hf := hg.toFramed
  have hfirst := getAttribute_of_range α (buffer_ne_empty hf) (range_parsed α hg)
    (headersOf_le α hf)
  rw [← hg.attrsRead_eq, ← head?_headersOf α hf]
  rwa [hg.attrsRead_eq]

end Typed

/-- A value that a message delivers is not longer than a length field can say. -/
theorem valueSize_lt_of_mem_getAttributes {α : Type} [AttributeSpec α] {buffer : Bytes}
    {d : Decoder} (hparse : parse buffer = .ok (some d)) {a : α} (ha : a ∈ d.getAttributes α) :
    AttributeSpec.valueSize a < 65536 := by
  obtain ⟨h, rs, hg, rfl⟩ := parse_eq_some_iff.1 hparse
  rw [getAttributes_parsed α hg, valuesOf, List.mem_filterMap] at ha
  obtain ⟨r, hr, hdec⟩ := ha
  have hle := AttributeSpec.valueSize_le_of_decode _ _ _ hdec
  exact hle.trans_lt (hg.value_lt r (List.mem_of_mem_filter hr))

/-! ## Lookups by raw code -/

/-- The table answers for the code `t` as the headers `hs` on the wire do. -/
structure TableExact (d : Decoder) (hs : List AttrHeader) (t : UInt16) : Prop where
  first : d.getAttributeHeader t = hs.find? fun hd => hd.type == t
  all : d.attributes.getAll t = hs.filter fun hd => hd.type == t
  view : d.attributes.range t = hs.filter fun hd => hd.type == t

theorem tableExact_of_range {d : Decoder} {hs : List AttrHeader} {t : UInt16}
    (h : d.attributes.range t = hs.filter fun hd => hd.type == t) : TableExact d hs t where
  first := by rw [getAttributeHeader, AttributeTable.get_eq_head, h, List.head?_filter]
  all := by rw [AttributeTable.getAll_eq_range, h]
  view := h

/-- The headers the table starts with are extra ones for the code zero. -/
theorem not_tableExact_zero (buffer : Bytes) (h : StunHeader) (rs : List WireAttr) :
    ¬TableExact (parsed buffer h rs) (wireHeaders 20 rs) 0 := by
  intro hexact
  have hrange := hexact.view
  rw [parsed, AttributeTable.range_append_new, if_pos rfl] at hrange
  have hlen := congrArg List.length hrange
  rw [List.length_append, AttributeTable.new, List.length_replicate] at hlen
  omega

/-- **The table is exact at every code but zero**, for every message and every code. -/
theorem tableExact_iff {buffer : Bytes} {d : Decoder} (hparse : parse buffer = .ok (some d)) :
    ∃ rs, Grammar buffer d.stunHeader rs ∧
      ∀ t, TableExact d (wireHeaders 20 rs) t ↔ t ≠ 0 := by
  obtain ⟨h, rs, hg, rfl⟩ := parse_eq_some_iff.1 hparse
  refine ⟨rs, hg, fun t => ⟨?_, ?_⟩⟩
  · rintro hexact rfl
    exact not_tableExact_zero buffer h rs hexact
  · intro ht
    apply tableExact_of_range
    rw [parsed, AttributeTable.range_append_new, if_neg ht, List.nil_append]

/-! A Binding request with one PRIORITY. -/

def priorityHeader : StunHeader := ⟨0x0001, 8, magicCookie, ByteArrayN.zero 12⟩

def priorityAttrs : List WireAttr := [⟨0x0024, [0, 0, 0, 7], []⟩]

def priorityMessage : Bytes := priorityHeader.wire ++ priorityAttrs.flatMap (wire stunFormat)

theorem priorityMessage_grammar : Grammar priorityMessage priorityHeader priorityAttrs := by
  refine Grammar.of_wire rfl ?_ rfl
  intro r hr
  rw [List.mem_singleton.1 hr]
  exact ⟨by decide, rfl⟩

theorem parse_priorityMessage :
    parse priorityMessage = .ok (some (parsed priorityMessage priorityHeader priorityAttrs)) :=
  parse_eq_some_iff.2 ⟨_, _, priorityMessage_grammar, rfl⟩

theorem tableExact_iff_priority :
    ∃ rs, Grammar priorityMessage priorityHeader rs ∧
      ∀ t, TableExact (parsed priorityMessage priorityHeader priorityAttrs) (wireHeaders 20 rs) t ↔
        t ≠ 0 :=
  tableExact_iff parse_priorityMessage

/-- The message has no attribute of type zero, but the table has a header of that type. -/
theorem header_of_type_zero :
    ∃ d rs, parse priorityMessage = .ok (some d) ∧ Grammar priorityMessage d.stunHeader rs ∧
      (∀ r ∈ rs, r.tag ≠ 0) ∧ d.getAttributeHeader 0 = some {} ∧
      ¬TableExact d (wireHeaders 20 rs) 0 := by
  refine ⟨_, priorityAttrs, parse_priorityMessage, priorityMessage_grammar, ?_, rfl,
    not_tableExact_zero _ _ _⟩
  intro r hr
  rw [List.mem_singleton.1 hr]
  decide

/-! ## The lookups of an accepted message -/

/-- The lookups of a class find in `d` what the attributes `rs` hold for it, and no header they look
at points behind the buffer. -/
structure LookupExact (α : Type) [StunAttribute α] (d : Decoder) (rs : List WireAttr) : Prop where
  all : d.getAttributes α = valuesOf α d.transactionId rs
  first : d.getAttribute α =
    (rs.find? fun r => r.tag == (StunAttribute.type α).code).bind
      fun r => StunAttribute.decode d.transactionId r.value
  guard_all : ∀ hd ∈ d.attributes.range (StunAttribute.type α).code,
    hd.offset + hd.len.toNat ≤ d.buffer.length
  guard_first : ∀ hd, d.attributes.get (StunAttribute.type α).code = some hd →
    hd.offset + hd.len.toNat ≤ d.buffer.length

/-- **Typed lookup loses and invents nothing**: on every buffer that `decode` accepts, for every
class. -/
theorem lookupExact_of_decode {buffer : Bytes} {d : Decoder}
    (hdecode : (new buffer).decode = .ok (true, d)) :
    d.buffer = buffer ∧ ∃ rs, Grammar buffer d.stunHeader rs ∧
      ∀ (α : Type) [StunAttribute α], LookupExact α d rs := by
  obtain ⟨h, rs, hg, rfl⟩ := decode_new_eq_true_iff.1 hdecode
  refine ⟨rfl, rs, hg, fun α _ => ?_⟩
  have hguard : ∀ hd ∈ (parsed buffer h rs).attributes.range (StunAttribute.type α).code,
      hd.offset + hd.len.toNat ≤ buffer.length := by
    rw [range_parsed α hg]
    exact headersOf_le α hg.toFramed
  refine ⟨getAttributes_parsed α hg, getAttribute_parsed α hg, hguard, ?_⟩
  intro hd hget
  rw [AttributeTable.get_eq_head] at hget
  exact hguard hd (List.mem_of_head? hget)

theorem lookupExact_of_decode_priority :
    ∃ rs, Grammar priorityMessage priorityHeader rs ∧
      ∀ (α : Type) [StunAttribute α],
        LookupExact α (parsed priorityMessage priorityHeader priorityAttrs) rs :=
  (lookupExact_of_decode (decode_new_eq_true_iff.2 ⟨_, _, priorityMessage_grammar, rfl⟩)).2

end Decoder

end Stunxx
