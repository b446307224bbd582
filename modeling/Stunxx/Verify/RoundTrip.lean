import Stunxx.Verify.Finished

/-!
# The round trip of a message

Attributes, then at most one MESSAGE-INTEGRITY of each kind, then at most one FINGERPRINT: what an
encoder accepted of such a message, a decoder delivers. The finished message is in the grammar with
the records of the calls, so each lookup decodes the values that its class put there
(`valuesOf_sent`). The one way to lose something is a value longer than 65535 bytes: its class casts
the length, the add is accepted, and the receiver cannot get the value back.
-/

namespace Stunxx

open Overlay Machine Tlv Digits

/-! ## What was added -/

/-- The object of an attribute of class `c`. -/
def Attr.as? (c : AttrClass) (a : Attr) : Option c.Obj :=
  if h : a.cls = c then some (h ▸ a.obj) else none

theorem Attr.as?_self (a : Attr) : a.as? a.cls = some a.obj := dif_pos rfl

theorem Attr.as?_of_ne {c : AttrClass} {a : Attr} (h : a.cls ≠ c) : a.as? c = none := dif_neg h

def AddCall.as? (c : AttrClass) : AddCall → Option c.Obj
  | ordinary a => a.as? c
  | _ => none

/-- The digest in the MESSAGE-INTEGRITY object of a kind that a call left. -/
def AddResult.digest (kind : IntegrityKind) (r : AddResult) : Option Bytes :=
  r.attr.bind fun a => if a.1 = kind then some a.2.hmac else none

/-! ## Lookups in the records of a history -/

section Lookup

variable {α : Type} [StunAttribute α] {tid : TransactionId} {r : WireAttr}

/-- What a lookup makes of one attribute. -/
def valueOf (α : Type) [StunAttribute α] (tid : TransactionId) (r : WireAttr) : Option α :=
  if r.tag == (StunAttribute.type α).code then StunAttribute.decode tid r.value else none

theorem valueOf_of_tag_eq (h : r.tag = (StunAttribute.type α).code) :
    valueOf α tid r = StunAttribute.decode tid r.value := if_pos (beq_iff_eq.2 h)

theorem valueOf_of_tag_ne (h : r.tag ≠ (StunAttribute.type α).code) : valueOf α tid r = none :=
  if_neg fun heq => h (beq_iff_eq.1 heq)

theorem valuesOf_eq_filterMap (α : Type) [StunAttribute α] (tid : TransactionId)
    (rs : List WireAttr) : Decoder.valuesOf α tid rs = rs.filterMap (valueOf α tid) := by
  rw [Decoder.valuesOf, List.filterMap_filter]
  rfl

end Lookup

section Sent

variable [Platform] {tid : TransactionId} {hist : List (AddCall × AddResult)} {rs : List WireAttr}
  {x : AddCall × AddResult} {r : WireAttr}

/-- A lookup in the records of a history finds what each call put on the wire. -/
theorem valuesOf_sent {α : Type} [StunAttribute α] (f : AddCall × AddResult → Option α)
    (hrs : List.Forall₂ Carries hist rs)
    (hf : ∀ x ∈ hist, ∀ r, Carries x r → valueOf α tid r = f x) :
    Decoder.valuesOf α tid rs = hist.filterMap f := by
  rw [valuesOf_eq_filterMap]
  induction hrs with
  | nil => rfl
  | @cons x r hist rs hx _ ih =>
    have hhead := hf x List.mem_cons_self r hx
    have htail := ih fun y hy => hf y (List.mem_cons_of_mem x hy)
    rw [List.filterMap_cons, List.filterMap_cons, hhead, htail]

/-- Ordinary classes do not share a type with what seals a message. -/
theorem type_ne_of_isSeal {c : AddCall} (hseal : c.isSeal = true) {cls : AttrClass}
    (hord : cls.isOrdinary = true) : c.type ≠ cls.type := by
  intro h
  have hclass : cls = .messageIntegritySHA1 ∨ cls = .messageIntegritySHA256 ∨
      cls = .fingerprint := by
    cases c with
    | ordinary => cases hseal
    | integrity kind a =>
      cases kind
      · exact .inl (AttrClass.type_inj h.symm)
      · exact .inr (.inl (AttrClass.type_inj h.symm))
    | fingerprint => exact .inr (.inr (AttrClass.type_inj h.symm))
  rcases hclass with rfl | rfl | rfl <;> cases hord

/-- An ordinary class reads back the attribute of the class, if its size was not cut. -/
theorem valueOf_ordinary {c : AttrClass} (hord : c.isOrdinary = true) (hx : Carries x r)
    (hlimits : ∀ a, x.1 = .ordinary a → a.InLimits tid ∧ a.valueSize ≤ 65535) :
    valueOf c.Obj tid r = x.1.as? c := by
  obtain ⟨tag, value, pad⟩ := r
  obtain ⟨-, htag, -, hvalue⟩ := hx
  cases hvalue with
  | @ordinary a _ hwire =>
    obtain ⟨hin, hsize⟩ := hlimits a rfl
    by_cases hcls : a.cls = c
    · subst hcls
      rw [valueOf_of_tag_eq htag, hwire (by omega)]
      have hdec := AttributeSpec.decode_wireValue tid a.obj hin (Nat.lt_succ_of_le hsize)
      exact hdec.trans a.as?_self.symm
    · rw [valueOf_of_tag_ne]
      · exact (Attr.as?_of_ne hcls).symm
      · intro heq
        exact hcls (AttrClass.type_inj (StunAttrType.code_inj (htag.symm.trans heq)))
  | integrity =>
    apply valueOf_of_tag_ne
    intro heq
    exact type_ne_of_isSeal rfl hord (StunAttrType.code_inj (htag.symm.trans heq))
  | fingerprint =>
    apply valueOf_of_tag_ne
    intro heq
    exact type_ne_of_isSeal rfl hord (StunAttrType.code_inj (htag.symm.trans heq))

/-- A MESSAGE-INTEGRITY class reads back the digest. -/
theorem valueOf_integrity (kind : IntegrityKind) (hx : Carries x r) :
    valueOf kind.Obj tid r = (x.2.digest kind).map MessageIntegrityAttrT.ofHmac := by
  obtain ⟨tag, value, pad⟩ := r
  obtain ⟨-, htag, -, hvalue⟩ := hx
  cases hvalue with
  | @ordinary a =>
    apply valueOf_of_tag_ne
    intro heq
    have hne := type_ne_of_isSeal (c := .integrity kind (.ofKey [])) rfl a.ordinary
    exact hne (StunAttrType.code_inj (heq.symm.trans htag))
  | @integrity kind' a _ hsize =>
    by_cases hkind : kind' = kind
    · subst hkind
      rw [valueOf_of_tag_eq htag, AddResult.digest, Option.bind_some, if_pos rfl]
      exact if_neg (not_not.2 hsize)
    · rw [valueOf_of_tag_ne, AddResult.digest, Option.bind_some, if_neg hkind, Option.map_none]
      intro heq
      have htype : kind'.type = kind.type := StunAttrType.code_inj (htag.symm.trans heq)
      revert htype
      cases kind' <;> cases kind <;> first | exact absurd rfl hkind | exact fun h => by cases h
  | fingerprint =>
    apply valueOf_of_tag_ne
    intro heq
    have htype : StunAttrType.fingerprint = kind.type :=
      StunAttrType.code_inj (htag.symm.trans heq)
    cases kind <;> cases htype

/-- Only the record of `addFingerprint` is read as a FINGERPRINT. -/
theorem valueOf_fingerprint (hx : Carries x r) (hne : x.1 ≠ .fingerprint) :
    valueOf FingerprintAttr tid r = none := by
  refine valueOf_of_tag_ne fun heq => hne ?_
  exact eq_fingerprint_of_type (StunAttrType.code_inj (hx.tag.symm.trans heq))

/-- A receiver knows the type of everything an encoder sends. -/
theorem unknownTypes_sent (hrs : List.Forall₂ Carries hist rs) : unknownTypes rs = [] := by
  rw [unknownTypes, List.filter_eq_nil_iff]
  intro t ht
  obtain ⟨r, hr, rfl⟩ := List.mem_map.1 ht
  obtain ⟨x, -, hx⟩ := exists_carries hrs r hr
  rw [hx.tag, isKnownAttrType_code]
  simp

/-- Without a call of `addFingerprint` there is no FINGERPRINT. -/
theorem fingerprint_values_eq_nil (hrs : List.Forall₂ Carries hist rs)
    (hnot : AddCall.fingerprint ∉ hist.map Prod.fst) :
    Decoder.valuesOf FingerprintAttr tid rs = [] := by
  have hnone : Decoder.valuesOf FingerprintAttr tid rs = hist.filterMap fun _ => none := by
    apply valuesOf_sent _ hrs
    intro x hx r hr
    exact valueOf_fingerprint hr fun hfp => hnot (hfp ▸ List.mem_map_of_mem hx)
  exact hnone.trans (List.filterMap_none hist)

/-- A FINGERPRINT added last is read back as the CRC of what is in front of it. -/
theorem Sent.fingerprint_values {type : UInt16} {size : Nat} {e : Encoder}
    (h : Sent type tid size hist e) (hrs : List.Forall₂ Carries hist rs)
    (hbytes : slice e.finalize.buffer.bytes 20 (e.offset - 20) = rs.flatMap (wire stunFormat))
    {front : List AddCall} (hfront : AddCall.fingerprint ∉ front)
    (hcalls : hist.map Prod.fst = front ++ [.fingerprint]) :
    Decoder.valuesOf FingerprintAttr tid rs =
      [FingerprintAttr.compute (e.finalize.buffer.bytes.take (e.offset - 8))] := by
  obtain ⟨hist, last, rfl, rfl, hlast⟩ := List.map_eq_append_iff.1 hcalls
  obtain ⟨x, rfl, hx⟩ := List.map_eq_singleton_iff.1 hlast
  obtain ⟨rs, r, rfl, hfrontRs, hr⟩ := carries_concat hrs
  obtain rfl := h.fingerprint_record hx hr hbytes
  have hnone : Decoder.valuesOf FingerprintAttr tid rs = [] :=
    fingerprint_values_eq_nil hfrontRs hfront
  rw [valuesOf_eq_filterMap] at hnone ⊢
  rw [List.filterMap_append, hnone, List.nil_append, List.filterMap_cons, valueOf_of_tag_eq rfl]
  simp only [StunAttribute.decode, FingerprintAttr.decode_wireValue, List.filterMap_nil]

end Sent

/-! ## Messages -/

/-- The calls of a message: attributes, then at most one MESSAGE-INTEGRITY of each kind, then at
most one FINGERPRINT. -/
def messageCalls (attrs : List Attr) (sha1 : Option IntegrityKind.sha1.Obj)
    (sha256 : Option IntegrityKind.sha256.Obj) (fingerprint : Bool) : List AddCall :=
  attrs.map .ordinary ++ (sha1.map (AddCall.integrity .sha1)).toList ++
    (sha256.map (AddCall.integrity .sha256)).toList ++ if fingerprint then [.fingerprint] else []

section Messages

variable {attrs : List Attr} {sha1 : Option IntegrityKind.sha1.Obj}
  {sha256 : Option IntegrityKind.sha256.Obj}

theorem mem_messageCalls {c : AddCall} {fingerprint : Bool} :
    c ∈ messageCalls attrs sha1 sha256 fingerprint ↔
      (∃ a ∈ attrs, .ordinary a = c) ∨ (∃ b ∈ sha1, .integrity .sha1 b = c) ∨
        (∃ b ∈ sha256, .integrity .sha256 b = c) ∨ (fingerprint = true ∧ .fingerprint = c) := by
  simp only [messageCalls, List.mem_append, List.mem_map, Option.mem_toList, or_assoc]
  cases fingerprint <;> simp [eq_comm]

theorem sealsLast_messageCalls (fingerprint : Bool) :
    SealsLast (messageCalls attrs sha1 sha256 fingerprint) := by
  cases fingerprint with
  | true => exact .inr ⟨.fingerprint, List.getLast?_concat, rfl⟩
  | false =>
    simp only [messageCalls, Bool.false_eq_true, if_false, List.append_nil]
    cases sha256 with
    | some b => exact .inr ⟨.integrity .sha256 b, List.getLast?_concat, rfl⟩
    | none =>
      simp only [Option.map_none, Option.toList_none, List.append_nil]
      cases sha1 with
      | some b => exact .inr ⟨.integrity .sha1 b, List.getLast?_concat, rfl⟩
      | none =>
        simp only [Option.map_none, Option.toList_none, List.append_nil]
        left
        intro c hc
        obtain ⟨a, -, rfl⟩ := List.mem_map.1 hc
        rfl

theorem filterMap_as?_messageCalls (c : AttrClass) (fingerprint : Bool) :
    (messageCalls attrs sha1 sha256 fingerprint).filterMap (AddCall.as? c) =
      attrs.filterMap (Attr.as? c) := by
  have hordinary : (attrs.map AddCall.ordinary).filterMap (AddCall.as? c) =
      attrs.filterMap (Attr.as? c) := List.filterMap_map
  have hsha1 : (sha1.map (AddCall.integrity .sha1)).toList.filterMap (AddCall.as? c) = [] := by
    cases sha1 <;> rfl
  have hsha256 :
      (sha256.map (AddCall.integrity .sha256)).toList.filterMap (AddCall.as? c) = [] := by
    cases sha256 <;> rfl
  rw [messageCalls, List.filterMap_append, List.filterMap_append, List.filterMap_append, hordinary,
    hsha1, hsha256, List.append_nil, List.append_nil]
  cases fingerprint <;> exact List.append_nil _

theorem fingerprint_not_mem_messageCalls :
    AddCall.fingerprint ∉ messageCalls attrs sha1 sha256 false := by
  rw [mem_messageCalls]
  rintro (⟨a, -, h⟩ | ⟨b, -, h⟩ | ⟨b, -, h⟩ | ⟨h, -⟩) <;> cases h

theorem messageCalls_true :
    messageCalls attrs sha1 sha256 true =
      messageCalls attrs sha1 sha256 false ++ [.fingerprint] := by
  simp only [messageCalls, Bool.false_eq_true, if_false, if_true, List.append_nil]

end Messages

/-! ## The round trip -/

section RoundTrip

variable [Platform]

/-- A decoder delivers a message: its header, all of its attributes class by class, and nothing
that it does not know. -/
structure Delivers (method : StunMethod) (cls : StunClass) (tid : TransactionId) (attrs : List Attr)
    (fingerprint : Bool) (results : List AddResult) (buffer : Bytes) (total : Nat)
    (d : Decoder) : Prop where
  messageClass : d.messageClass = cls.code
  messageMethod : d.messageMethod = method.code
  transactionId : d.transactionId = tid
  totalLength : d.totalLength = total
  unknownRequired : d.unknownRequired = []
  ordinary : ∀ c : AttrClass, c.isOrdinary = true →
    d.getAttributes c.Obj = attrs.filterMap (Attr.as? c)
  integrity : ∀ kind : IntegrityKind, d.getAttributes kind.Obj =
    (results.filterMap (AddResult.digest kind)).map MessageIntegrityAttrT.ofHmac
  fingerprint : d.getAttributes FingerprintAttr =
    if fingerprint then [FingerprintAttr.compute (buffer.take (total - 8))] else []

/-- The message is parsed, and delivered. -/
def RoundTrips (method : StunMethod) (cls : StunClass) (tid : TransactionId) (attrs : List Attr)
    (fingerprint : Bool) (results : List AddResult) (buffer : Bytes) (total : Nat) : Prop :=
  ∃ d, Decoder.parse (buffer.take total) = .ok (some d) ∧
    Delivers method cls tid attrs fingerprint results buffer total d

variable {method : StunMethod} {cls : StunClass} {tid : TransactionId} {attrs : List Attr}
  {fingerprint : Bool}

/-- What a decoder delivers was short enough for a length field. -/
theorem RoundTrips.valueSize_le {results : List AddResult} {buffer : Bytes} {total : Nat}
    (h : RoundTrips method cls tid attrs fingerprint results buffer total) {a : Attr}
    (ha : a ∈ attrs) : a.valueSize ≤ 65535 := by
  obtain ⟨d, hparse, hd⟩ := h
  have hmem : a.obj ∈ d.getAttributes a.cls.Obj := by
    rw [hd.ordinary a.cls a.ordinary]
    exact List.mem_filterMap.2 ⟨a, ha, a.as?_self⟩
  exact Nat.le_of_lt_succ (Decoder.valueSize_lt_of_mem_getAttributes hparse hmem)

theorem RoundTrips.le_length {results : List AddResult} {buffer : Bytes} {total : Nat}
    (h : RoundTrips method cls tid attrs fingerprint results buffer total) :
    20 ≤ buffer.length := by
  obtain ⟨d, hparse, -⟩ := h
  obtain ⟨header, rs, hg, -⟩ := Decoder.parse_eq_some_iff.1 hparse
  have hroom := hg.room
  rw [List.length_take] at hroom
  omega

/-- The records take the bytes behind the header. -/
theorem Sent.sum_stride {type : UInt16} {size : Nat} {hist : List (AddCall × AddResult)}
    {e : Encoder} (h : Sent type tid size hist e) (hsize : 20 ≤ size) {rs : List WireAttr}
    (hrs : List.Forall₂ Carries hist rs)
    (hbytes : slice e.finalize.buffer.bytes 20 (e.offset - 20) = rs.flatMap (wire stunFormat)) :
    20 + (rs.map (stride stunFormat)).sum = e.offset := by
  have hoff := h.le_offset
  have hle := h.offset_le
  have hfin := h.toInv.finalize.length_eq
  have hlen := congrArg List.length hbytes
  rw [length_slice_of_le (by omega), length_flatMap_wire stunFormat (full_of_carries hrs)] at hlen
  omega

/-- The values of an ordinary class are the attributes of the class. -/
theorem ordinary_values {hist : List (AddCall × AddResult)} {rs : List WireAttr}
    {sha1 : Option IntegrityKind.sha1.Obj} {sha256 : Option IntegrityKind.sha256.Obj}
    (hrs : List.Forall₂ Carries hist rs)
    (hcalls : hist.map Prod.fst = messageCalls attrs sha1 sha256 fingerprint)
    (hlimits : ∀ a ∈ attrs, a.InLimits tid ∧ a.valueSize ≤ 65535) {c : AttrClass}
    (hord : c.isOrdinary = true) :
    Decoder.valuesOf c.Obj tid rs = attrs.filterMap (Attr.as? c) := by
  have hvalues : Decoder.valuesOf c.Obj tid rs = hist.filterMap (AddCall.as? c ∘ Prod.fst) := by
    apply valuesOf_sent _ hrs
    intro x hx r hr
    apply valueOf_ordinary hord hr
    intro a ha
    have hmem : AddCall.ordinary a ∈ messageCalls attrs sha1 sha256 fingerprint := by
      rw [← hcalls, ← ha]
      exact List.mem_map_of_mem hx
    rcases mem_messageCalls.1 hmem with ⟨b, hb, heq⟩ | ⟨b, -, heq⟩ | ⟨b, -, heq⟩ | ⟨-, heq⟩
    · cases heq
      exact hlimits a hb
    all_goals cases heq
  rw [hvalues, ← List.filterMap_map, hcalls, filterMap_as?_messageCalls]

theorem Sent.roundTrips {size : Nat} {hist : List (AddCall × AddResult)} {e : Encoder}
    (h : Sent (messageType method cls) tid size hist e) (hsize : 20 ≤ size)
    (hbound : e.offset - 20 ≤ 65535) {sha1 : Option IntegrityKind.sha1.Obj}
    {sha256 : Option IntegrityKind.sha256.Obj}
    (hcalls : hist.map Prod.fst = messageCalls attrs sha1 sha256 fingerprint)
    (hlimits : ∀ a ∈ attrs, a.InLimits tid ∧ a.valueSize ≤ 65535) :
    RoundTrips method cls tid attrs fingerprint (hist.map Prod.snd) e.finalize.buffer.bytes
      e.offset := by
  obtain ⟨rs, hrs, hbytes⟩ := h.records hbound
  have hlast : ¬e.Sealed ∨ EndsSealed hist := by
    rw [← h.sealsLast_iff, hcalls]
    exact sealsLast_messageCalls fingerprint
  have hg := h.grammar hsize hbound hlast hrs hbytes
  refine ⟨_, Decoder.parse_eq_some_iff.2 ⟨_, rs, hg, rfl⟩, ?_⟩
  constructor
  case messageClass => exact messageType_class method cls
  case messageMethod => exact messageType_method method cls
  case transactionId => rfl
  case totalLength => exact h.sum_stride hsize hrs hbytes
  case unknownRequired => exact unknownTypes_sent hrs
  case ordinary =>
    intro c hord
    rw [Decoder.getAttributes_parsed c.Obj hg]
    exact ordinary_values hrs hcalls hlimits hord
  case integrity =>
    intro kind
    rw [Decoder.getAttributes_parsed kind.Obj hg,
      valuesOf_sent _ hrs fun x _ r hr => valueOf_integrity kind hr, List.filterMap_map,
      List.map_filterMap]
    rfl
  case fingerprint =>
    rw [Decoder.getAttributes_parsed FingerprintAttr hg]
    cases fingerprint with
    | true =>
      exact h.fingerprint_values hrs hbytes fingerprint_not_mem_messageCalls
        (hcalls.trans messageCalls_true)
    | false =>
      apply fingerprint_values_eq_nil hrs
      rw [hcalls]
      exact fingerprint_not_mem_messageCalls

/-- **A message round-trips** exactly when the buffer has room for a header and no value is longer
than 65535 bytes. -/
theorem Encoder.round_trip_iff (method : StunMethod) (cls : StunClass) (tid : TransactionId)
    (buffer : Bytes) (attrs : List Attr) (sha1 : Option IntegrityKind.sha1.Obj)
    (sha256 : Option IntegrityKind.sha256.Obj) (fingerprint : Bool)
    (hok : ∀ r ∈ (run Encoder.add (Encoder.new (messageType method cls) tid buffer)
      (messageCalls attrs sha1 sha256 fingerprint)).1, r.ok = true)
    (hbound : (run Encoder.add (Encoder.new (messageType method cls) tid buffer)
      (messageCalls attrs sha1 sha256 fingerprint)).2.finalize.totalSize - 20 ≤ 65535)
    (hlimits : ∀ a ∈ attrs, a.InLimits tid) :
    let out := run Encoder.add (Encoder.new (messageType method cls) tid buffer)
      (messageCalls attrs sha1 sha256 fingerprint)
    RoundTrips method cls tid attrs fingerprint out.1 out.2.finalize.buffer.bytes
        out.2.finalize.totalSize ↔
      20 ≤ buffer.length ∧ ∀ a ∈ attrs, a.valueSize ≤ 65535 := by
  intro out
  have hsent := sent_run (messageType method cls) tid buffer hok
  rw [Encoder.finalize_totalSize] at hbound ⊢
  constructor
  · intro hround
    have hlen := hround.le_length
    rw [hsent.toInv.finalize.length_eq] at hlen
    exact ⟨hlen, fun a ha => hround.valueSize_le ha⟩
  · rintro ⟨hsize, hfit⟩
    have hround := hsent.roundTrips hsize hbound (map_fst_history _ _ _)
      fun a ha => ⟨hlimits a ha, hfit a ha⟩
    rwa [map_snd_history] at hround

/-- A SOFTWARE of 65536 bytes is accepted as an attribute without a value, and not delivered. -/
theorem Encoder.cut_software_lost (tid : TransactionId) {buffer : Bytes}
    (hbuffer : 24 ≤ buffer.length) {a : SoftwareAttr} (h : a.value.length = 65536) :
    let attrs : List Attr := [⟨.software, rfl, a⟩]
    let out := run Encoder.add (Encoder.new (messageType method cls) tid buffer)
      (messageCalls attrs none none false)
    (∀ r ∈ out.1, r.ok = true) ∧ out.2.finalize.totalSize - 20 ≤ 65535 ∧
      (∀ a ∈ attrs, a.InLimits tid) ∧
      ¬RoundTrips method cls tid attrs false out.1 out.2.finalize.buffer.bytes
        out.2.finalize.totalSize := by
  intro attrs out
  have hlen := StringAttrT.length_of_cut h
  have hpad : Encoder.padded a = 4 := by
    rw [Encoder.padded, hlen]
    rfl
  have hspan : AttributeSpec.room a = 4 := hpad
  have hroom : (Encoder.new (messageType method cls) tid buffer).offset + 4 ≤
      (Encoder.new (messageType method cls) tid buffer).buffer.bytes.length := hbuffer
  have hadd := Encoder.addAttribute_eq (Encoder.new (messageType method cls) tid buffer)
    (a := a) rfl
  rw [hpad, hspan, if_pos ⟨hroom, Nat.le_refl 4⟩] at hadd
  have hout :
      out = ([{ ok := true }], (Encoder.new (messageType method cls) tid buffer).append a) :=
    congrArg (fun out : Bool × Encoder => ([({ ok := out.1 } : AddResult)], out.2)) hadd
  refine ⟨?_, ?_, ?_, ?_⟩
  · rw [hout]
    intro r hr
    rw [List.mem_singleton.1 hr]
  · rw [hout, Encoder.finalize_totalSize, Encoder.append_offset, hpad]
    exact Nat.le_of_ble_eq_true rfl
  · intro b hb
    rw [List.mem_singleton.1 hb]
    have hmax : 65536 ≤ sizeMax := by decide
    exact h.trans_le hmax
  · intro hround
    have hle := hround.valueSize_le (List.mem_singleton_self _)
    have hsize : Attr.valueSize ⟨.software, rfl, a⟩ = 65536 := h
    omega

end RoundTrip

namespace Encoder

/-! ## A signed PRIORITY, and a SOFTWARE that is too long -/

section Priority

/-- The host that signs a message of one PRIORITY with the key `key`. -/
local instance signedHost : Platform :=
  .ofDigest [0xC4, 0xEA, 0x77, 0x33, 0x35, 0xFF, 0x64, 0x67, 0x18, 0x8D, 0x17, 0x4A, 0xEB, 0x53,
    0x91, 0xB4, 0xB2, 0xE9, 0xA9, 0x5C]

theorem round_trip_iff_priority :
    let attrs : List Attr := [⟨.priority, rfl, ⟨7⟩⟩]
    let out := run add (new (messageType .binding .request) (ByteArrayN.zero 12)
      (List.replicate 128 0)) (messageCalls attrs (some (.ofKey [0x6B, 0x65, 0x79])) none true)
    RoundTrips .binding .request (ByteArrayN.zero 12) attrs true out.1 out.2.finalize.buffer.bytes
        out.2.finalize.totalSize ↔
      20 ≤ (List.replicate 128 (0 : UInt8)).length ∧ ∀ a ∈ attrs, a.valueSize ≤ 65535 :=
  round_trip_iff .binding .request (ByteArrayN.zero 12) (List.replicate 128 0)
    [⟨.priority, rfl, ⟨7⟩⟩] (some (.ofKey [0x6B, 0x65, 0x79])) none true (by decide +kernel)
    (by decide +kernel)
    fun a ha => by
      rw [List.mem_singleton.1 ha]
      trivial

/-- A SOFTWARE of 65536 bytes is accepted, and not delivered. -/
theorem long_software_lost :
    let attrs : List Attr := [⟨.software, rfl, ⟨List.replicate 65536 0x61⟩⟩]
    let out := run add (new (messageType .binding .request) (ByteArrayN.zero 12)
      (List.replicate 65600 0)) (messageCalls attrs none none false)
    (∀ r ∈ out.1, r.ok = true) ∧ out.2.finalize.totalSize - 20 ≤ 65535 ∧
      (∀ a ∈ attrs, a.InLimits (ByteArrayN.zero 12)) ∧
      ¬RoundTrips .binding .request (ByteArrayN.zero 12) attrs false out.1
        out.2.finalize.buffer.bytes out.2.finalize.totalSize :=
  cut_software_lost (ByteArrayN.zero 12) (by rw [List.length_replicate]; decide)
    List.length_replicate

end Priority

end Encoder

end Stunxx
