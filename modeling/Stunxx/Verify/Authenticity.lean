import Stunxx.Verify.Contents
import Stunxx.Verify.Framing
import Stunxx.Verify.Tampering

/-!
# What a MESSAGE-INTEGRITY shows

A receiver with a key takes the HMAC of the bytes in front of the first MESSAGE-INTEGRITY of a kind,
under a length that ends with it, and compares it with the value (`IntegrityChecked`). What was sent
passes under its key, and under no key with another HMAC (`Encoder.integrity_checked`).

The bytes an HMAC is taken of tell everything in front of the MESSAGE-INTEGRITY. So if the HMAC a
receiver takes is of bytes that a sender's was taken of, it is for a MESSAGE-INTEGRITY of the same
kind, the type and the transaction ID are the sender's, and the lookups find first what the sender
had added in front (`Encoder.integrity_binds`). This holds for any bytes that parse and for any run
of the sender, failed calls included. Nothing is said about what stands behind.
-/

namespace Stunxx

open Overlay Machine Tlv Digits

/-! ## What a run added -/

section Accepted

variable [Platform] {hist : List (AddCall × AddResult)} {e : Encoder}

/-- The add of a call, if it succeeded. -/
def Call.accepted : Call × AddResult → Option (AddCall × AddResult)
  | (.add c, r) => if r.ok = true then some (c, r) else none
  | (.finalize, _) => none

/-- What was added was called for. -/
theorem mem_of_accepted {calls : List Call} {x : AddCall × AddResult}
    (hx : x ∈ (history Encoder.step e calls).filterMap Call.accepted) : .add x.1 ∈ calls := by
  obtain ⟨⟨call, r⟩, hy, haccepted⟩ := List.mem_filterMap.1 hx
  have hcall : call ∈ calls := mem_of_mem_history Encoder.step hy
  cases call with
  | add c =>
    rw [Call.accepted, Option.ite_none_right_eq_some] at haccepted
    obtain rfl := Option.some.inj haccepted.2
    exact hcall
  | finalize => cases haccepted

theorem Holds.sign (h : Holds hist e) (hoff : 20 ≤ e.offset) {kind : IntegrityKind} {a : kind.Obj}
    {digest : Bytes} (hroom : e.offset + Encoder.sealSize kind.type ≤ e.buffer.bytes.length)
    (hsize : digest.length = kind.expectedSize) :
    Holds (hist ++
        [(.integrity kind a, { ok := true, attr := some ⟨kind, { a with hmac := digest }⟩ })])
      (e.sign kind.type digest) := by
  obtain ⟨hready, hvalue⟩ := Encoder.ready_ofHmac hsize
  have hlen := MessageIntegrityAttrT.toNat_length (T := kind.type) (a := .ofHmac digest) hsize
  refine h.announce_append hoff (Encoder.padded_of_hmac hsize) hready hroom rfl hlen.symm ?_
  intro bs hbs
  obtain rfl : bs = digest := hbs hvalue
  exact .integrity hsize

theorem Holds.stamp (h : Holds hist e) (hoff : 20 ≤ e.offset)
    (hroom : e.offset + Encoder.fingerprintSize ≤ e.buffer.bytes.length) :
    Holds (hist ++ [(.fingerprint, { ok := true })]) e.stamp := by
  refine h.announce_append hoff (Encoder.padded_fingerprint e.fingerprint) rfl hroom rfl rfl ?_
  intro bs hbs
  obtain rfl : bs = e.fingerprint.wireValue := hbs e.valueSize_fingerprint_lt
  exact .fingerprint _

/-- A failed add leaves the records as they were, a successful one adds its own. -/
theorem Holds.outcome (h : Holds hist e) (hoff : 20 ≤ e.offset) {c : AddCall} {r : AddResult}
    {f : Encoder} (hout : Encoder.Outcome e c r f) :
    Holds (hist ++ (Call.accepted (.add c, r)).toList) f := by
  cases hout with
  | refused => rwa [Call.accepted, if_neg nofun, Option.toList_none, List.append_nil]
  | announced =>
    rw [Call.accepted, if_neg nofun, Option.toList_none, List.append_nil, Encoder.announce_eq]
    exact h.writeLength hoff _
  | ordinary hroom => exact h.append hoff (Attr.ready _) hroom rfl rfl fun bs hbs => .ordinary hbs
  | integrity hroom _ hsize => exact h.sign hoff hroom hsize
  | fingerprint hroom => exact h.stamp hoff hroom

theorem Holds.finalize (h : Holds hist e) (hoff : 20 ≤ e.offset) : Holds hist e.finalize := by
  by_cases hs : e.Sealed
  · rwa [Encoder.finalize_of_sealed hs]
  · rw [Encoder.finalize_of_not_sealed hs]
    exact h.writeLength hoff _

/-- **Any run leaves the records of the adds that succeeded**, whatever else failed. -/
theorem holds_run (type : UInt16) (tid : TransactionId) (buffer : Bytes) (calls : List Call) :
    Holds ((history Encoder.step (Encoder.new type tid buffer) calls).filterMap Call.accepted)
      (run Encoder.step (Encoder.new type tid buffer) calls).2 := by
  have hstep : ∀ (past : List (Call × AddResult)) (f : Encoder) (call : Call),
      Encoder.Inv type tid buffer.length f ∧ Holds (past.filterMap Call.accepted) f → True →
      Encoder.Inv type tid buffer.length (f.step call).2 ∧
        Holds ((past ++ [(call, (f.step call).1)]).filterMap Call.accepted) (f.step call).2 := by
    rintro past f call ⟨hinv, h⟩ -
    rw [List.filterMap_append, List.filterMap_cons, List.filterMap_nil]
    cases call with
    | add c =>
      have hout := Encoder.add_outcome f c
      have hnext := h.outcome hinv.le_offset hout
      refine ⟨hinv.outcome hout, ?_⟩
      cases haccepted : Call.accepted (.add c, (f.add c).1) with
      | none => simpa [Encoder.step, haccepted] using hnext
      | some x => simpa [Encoder.step, haccepted] using hnext
    | finalize =>
      refine ⟨hinv.finalize, ?_⟩
      rw [Call.accepted, List.append_nil]
      exact h.finalize hinv.le_offset
  have hnew : Holds ([] : List (AddCall × AddResult)) (Encoder.new type tid buffer) :=
    fun _ => ⟨[], .nil, rfl⟩
  have hrun := @run_history _ _ _ Encoder.step _ _ hstep [] _
    ⟨Encoder.inv_new type tid buffer, hnew⟩ calls fun _ _ => trivial
  exact hrun.2

end Accepted

/-! ## Calls and their records -/

/-- The calls behind a seal, up to the last seal and behind it. -/
theorem exists_last_seal {c : AddCall} (hc : c.isSeal = true) (calls : List AddCall) :
    ∃ front behind, calls = front ++ behind ∧ (∀ o ∈ behind, o.isSeal = false) ∧
      ∃ s, (c :: front).getLast? = some s ∧ s.isSeal = true := by
  induction calls using List.reverseRecOn with
  | nil => exact ⟨[], [], rfl, by simp, c, rfl, hc⟩
  | append_singleton calls o ih =>
    cases ho : o.isSeal with
    | true =>
      have hlast : ((c :: calls) ++ [o]).getLast? = some o := List.getLast?_concat
      exact ⟨calls ++ [o], [], by simp, by simp, o, hlast, ho⟩
    | false =>
      obtain ⟨front, behind, rfl, hbehind, hlast⟩ := ih
      refine ⟨front, behind ++ [o], List.append_assoc _ _ _, ?_, hlast⟩
      intro p hp
      rcases List.mem_append.1 hp with hp | hp
      · exact hbehind p hp
      · rwa [List.mem_singleton.1 hp]

section Records

variable [Platform]

/-- Only a MESSAGE-INTEGRITY has the type of its kind. -/
theorem exists_integrity_of_type {c : AddCall} {kind : IntegrityKind} (h : c.type = kind.type) :
    ∃ b, c = .integrity kind b := by
  cases c with
  | ordinary a =>
    have hne := type_ne_of_isSeal (c := .integrity kind (.ofKey [])) rfl a.ordinary
    exact absurd h.symm hne
  | integrity kind' b =>
    obtain rfl : kind' = kind := by
      cases kind <;> cases kind' <;> first | rfl | cases h
    exact ⟨b, rfl⟩
  | fingerprint => cases kind <;> cases h

/-- The records of a history and of what follows it. -/
theorem carries_append {hist hist' : List (AddCall × AddResult)} {rs : List WireAttr}
    (hrs : List.Forall₂ Carries (hist ++ hist') rs) :
    ∃ front behind, rs = front ++ behind ∧ List.Forall₂ Carries hist front ∧
      List.Forall₂ Carries hist' behind := by
  have htake := List.forall₂_take_append _ _ _ hrs.flip
  have hdrop := List.forall₂_drop_append _ _ _ hrs.flip
  exact ⟨_, _, (List.take_append_drop _ rs).symm, htake.flip, hdrop.flip⟩

/-- The place of an attribute is told by the calls in front of it. -/
theorem strides_of_carries {hist : List (AddCall × AddResult)} {rs : List WireAttr}
    (hrs : List.Forall₂ Carries hist rs) :
    rs.map (stride stunFormat) = hist.map fun x => attrHeaderSize + roundUp4 x.1.length := by
  induction hrs with
  | nil => rfl
  | @cons x r hist rs hx _ ih =>
    rw [List.map_cons, List.map_cons, ih, stride_stunFormat, hx.length]

end Records

/-! ## What an HMAC is taken of -/

/-- A header whose length ends with the MESSAGE-INTEGRITY, and the attributes in front of it. -/
theorem macInput_eq_append {buffer : Bytes} {h : StunHeader} (htake : buffer.take 20 = h.wire)
    {o : Nat} (ho : 20 ≤ o) (n : Nat) :
    macInput buffer o n =
      StunHeader.wire { h with msgLength := UInt16.ofNat (o - 20 + (4 + n)) } ++
        slice buffer 20 (o - 20) := by
  have hwire := StunHeader.length_wire h
  rw [macInput, take_eq_append_slice _ ho, htake, ← writeBe16_ofNat,
    overlay_append_left _ (by rw [hwire]; exact Nat.le_add_left 4 16), StunHeader.overlay_wire,
    Nat.add_assoc]

/-- The attributes in front of one that a message has, and what its HMAC is taken of. -/
theorem Grammar.exists_front {buffer : Bytes} {h : StunHeader} {rs : List WireAttr}
    (hg : Grammar buffer h rs) {hd : AttrHeader} (hmem : hd ∈ wireHeaders 20 rs) :
    ∃ front behind, rs = front ++ behind ∧ (∀ r ∈ front, Full stunFormat r) ∧
      hd.offset = 20 + (front.flatMap (wire stunFormat)).length + 4 ∧
      hd.offset ≤ 20 + h.msgLength.toNat ∧
      ∀ n, macInput buffer (hd.offset - 4) n =
        StunHeader.wire { h with msgLength := UInt16.ofNat (hd.offset - 4 - 20 + (4 + n)) } ++
          front.flatMap (wire stunFormat) := by
  obtain ⟨p, hp, rfl⟩ := List.mem_map.1 hmem
  obtain ⟨front, r, behind, rfl, rfl⟩ := exists_split_of_mem_layout stunFormat hp
  obtain ⟨hfull, -, rest, hbytes, -⟩ := hg.tiling.exists_split
  have hfront := length_flatMap_wire stunFormat hfull
  have hattrs := hg.length_attrBytes
  have hin : (front.flatMap (wire stunFormat)).length + 4 ≤ h.msgLength.toNat := by
    have hhead : (wire stunFormat r).length = 4 + r.value.length + r.padding.length :=
      Tlv.length_wire stunFormat r
    rw [← hattrs, hbytes, List.length_append, List.length_append, hhead]
    omega
  have hoff : (AttrHeader.ofPlace ⟨r.tag, r.value.length,
      20 + (front.map (stride stunFormat)).sum + stunFormat.headSize⟩).offset =
        20 + (front.flatMap (wire stunFormat)).length + 4 := by
    rw [hfront]
    rfl
  refine ⟨front, r :: behind, rfl, hfull, hoff, by omega, ?_⟩
  intro n
  rw [hoff, Nat.add_sub_cancel, macInput_eq_append hg.take_eq (Nat.le_add_right 20 _),
    Nat.add_sub_cancel_left]
  have hlen : 0 + (front.flatMap (wire stunFormat)).length ≤ h.msgLength.toNat := by omega
  have hslice : slice buffer 20 (front.flatMap (wire stunFormat)).length =
      slice (attrBytes buffer h) 0 (front.flatMap (wire stunFormat)).length :=
    (slice_slice buffer hlen).symm
  rw [hslice, hbytes, slice, List.drop_zero, List.take_left' rfl]

/-- What follows a message does not matter to its grammar. -/
theorem Grammar.append {buffer : Bytes} {h : StunHeader} {rs : List WireAttr}
    (hg : Grammar buffer h rs) (behind : Bytes) : Grammar (buffer ++ behind) h rs := by
  obtain ⟨hframed, hattrs⟩ := Decoder.Framed.append hg.toFramed behind
  exact ⟨hframed, by rw [hattrs]; exact hg.tiling⟩

/-! ## What it vouches for -/

section Vouched

variable [Platform]

/-- What a receiver finds first is what `sent` put on the wire. -/
structure Vouched (type : UInt16) (tid : TransactionId) (sent : List (AddCall × AddResult))
    (d : Decoder) : Prop where
  msgType : d.stunHeader.msgType = type
  transactionId : d.transactionId = tid
  ordinary : ∀ c : AttrClass, c.isOrdinary = true →
    sent.filterMap (fun x => x.1.as? c) <+: d.getAttributes c.Obj
  first : ∀ c : AttrClass, c.isOrdinary = true → ∀ b,
    (sent.filterMap fun x => x.1.as? c).head? = some b → d.getAttribute c.Obj = some b
  integrity : ∀ kind : IntegrityKind,
    (sent.filterMap fun x => (x.2.digest kind).map MessageIntegrityAttrT.ofHmac) <+:
      d.getAttributes kind.Obj

variable {sent : List (AddCall × AddResult)} {x : AddCall × AddResult} {r : WireAttr}

/-- A record of the type of an ordinary class holds an object of the class. -/
theorem Carries.isSome_as? {c : AttrClass} (hord : c.isOrdinary = true)
    (hx : Carries x r) (htag : r.tag = c.type.code) : (x.1.as? c).isSome = true := by
  have htype : x.1.type = c.type := StunAttrType.code_inj (hx.tag.symm.trans htag)
  obtain ⟨call, res⟩ := x
  cases call with
  | ordinary a =>
    obtain rfl : a.cls = c := AttrClass.type_inj htype
    exact Option.isSome_iff_exists.2 ⟨_, a.as?_self⟩
  | integrity => exact absurd htype (type_ne_of_isSeal rfl hord)
  | fingerprint => exact absurd htype (type_ne_of_isSeal rfl hord)

/-- A lookup of one attribute in the records of a history finds the first of its class. -/
theorem find?_sent {tid : TransactionId} {front : List WireAttr} {c : AttrClass}
    (hord : c.isOrdinary = true) (hrs : List.Forall₂ Carries sent front)
    (hread : ∀ x ∈ sent, x.1.Readable tid) :
    ((front.find? fun q => q.tag == (StunAttribute.type c.Obj).code).bind
        fun q => StunAttribute.decode (α := c.Obj) tid q.value) =
      (sent.filterMap fun x => x.1.as? c).head? := by
  have hvalues : Decoder.valuesOf c.Obj tid front = sent.filterMap fun x => x.1.as? c :=
    valuesOf_sent _ hrs fun x hx r hr => valueOf_ordinary hord hr (hread x hx)
  rw [← hvalues]
  apply find?_bind_eq_head?
  intro q hq htag
  obtain ⟨x, hx, hcarries⟩ := exists_carries hrs q hq
  have hcode : q.tag = (StunAttribute.type c.Obj).code := beq_iff_eq.1 htag
  rw [← valueOf_of_tag_eq hcode, valueOf_ordinary hord hcarries (hread x hx)]
  exact hcarries.isSome_as? hord hcode

/-- A message that begins with the records of `sent` is found to. -/
theorem Grammar.vouched {buffer : Bytes} {h : StunHeader} {front behind : List WireAttr}
    (hg : Grammar buffer h (front ++ behind)) (hrs : List.Forall₂ Carries sent front)
    (hread : ∀ x ∈ sent, x.1.Readable h.transactionId) :
    Vouched h.msgType h.transactionId sent (Decoder.parsed buffer h (front ++ behind)) := by
  have hvalues : ∀ (α : Type) [StunAttribute α],
      (Decoder.parsed buffer h (front ++ behind)).getAttributes α =
        Decoder.valuesOf α h.transactionId front ++ Decoder.valuesOf α h.transactionId behind := by
    intro α _
    rw [Decoder.getAttributes_parsed α hg, valuesOf_eq_filterMap, valuesOf_eq_filterMap,
      valuesOf_eq_filterMap, List.filterMap_append]
  constructor
  case msgType => rfl
  case transactionId => rfl
  case ordinary =>
    intro c hord
    have hadded : Decoder.valuesOf c.Obj h.transactionId front =
        sent.filterMap fun x => x.1.as? c :=
      valuesOf_sent _ hrs fun x hx r hr => valueOf_ordinary hord hr (hread x hx)
    rw [hvalues, hadded]
    exact List.prefix_append _ _
  case first =>
    intro c hord b hb
    rw [← find?_sent hord hrs hread] at hb
    obtain ⟨q, hq, hdec⟩ := Option.bind_eq_some_iff.1 hb
    rw [Decoder.getAttribute_parsed c.Obj hg, List.find?_append, hq]
    exact hdec
  case integrity =>
    intro kind
    have hdigests : Decoder.valuesOf kind.Obj h.transactionId front =
        sent.filterMap fun x => (x.2.digest kind).map MessageIntegrityAttrT.ofHmac :=
      valuesOf_sent _ hrs fun x _ r hr => valueOf_integrity kind hr
    rw [hvalues, hdigests]
    exact List.prefix_append _ _

end Vouched

/-! ## The receiver's check -/

/-- What a receiver with a key can check of the first MESSAGE-INTEGRITY of a kind: the HMAC it
computes of the bytes in front is the value. -/
def IntegrityChecked [Platform] (kind : IntegrityKind) (key buffer : Bytes) : Prop :=
  ∃ d hd a, Decoder.parse buffer = .ok (some d) ∧
    d.getAttributeHeader kind.type.code = some hd ∧ d.getAttribute kind.Obj = some a ∧
    let check := (MessageIntegrityAttrT.ofKey key : kind.Obj).compute
      (macInput buffer (hd.offset - 4) kind.expectedSize)
    check.1 = true ∧ check.2.value = a.value

/-- A digest is computed again exactly from a key and bytes that have it. -/
theorem MessageIntegrityAttrT.compute_ofKey_iff [Platform] {T : StunAttrType}
    {key message digest : Bytes} (hsize : digest.length = expectedSize T) :
    (((ofKey key : MessageIntegrityAttrT T).compute message).1 = true ∧
        ((ofKey key : MessageIntegrityAttrT T).compute message).2.value = digest) ↔
      key ≠ [] ∧ Platform.hmac (md T) key message = some digest := by
  constructor
  · rintro ⟨hok, hvalue⟩
    obtain ⟨hdigest, -, -⟩ := compute_eq_true hok
    refine ⟨?_, hdigest.trans (congrArg some hvalue)⟩
    rintro rfl
    cases hok
  · rintro ⟨hkey, hdigest⟩
    have hempty : ¬(ofKey key : MessageIntegrityAttrT T).key.isEmpty = true := by
      rwa [List.isEmpty_iff]
    have hcompute : (ofKey key : MessageIntegrityAttrT T).compute message =
        (true, { (ofKey key : MessageIntegrityAttrT T) with hmac := digest }) := by
      unfold compute
      rw [if_neg hempty]
      simp only [ofKey, hdigest, hsize, ne_eq, not_true_eq_false, if_false]
    rw [hcompute]
    exact ⟨rfl, rfl⟩

section Checked

variable {buffer : Bytes} {h : StunHeader} {front behind : List WireAttr} {r : WireAttr}

/-- A message passes under the keys whose HMAC of the bytes in front is its digest. -/
theorem integrityChecked_iff [Platform] {kind : IntegrityKind}
    (hg : Grammar buffer h (front ++ r :: behind))
    (hfront : ∀ q ∈ front, q.tag ≠ kind.type.code) (hr : r.tag = kind.type.code)
    (hsize : r.value.length = kind.expectedSize) {key : Bytes} :
    IntegrityChecked kind key buffer ↔ key ≠ [] ∧
      Platform.hmac (MessageIntegrityAttrT.md kind.type) key
        (macInput buffer (20 + (front.map (stride stunFormat)).sum) kind.expectedSize) =
          some r.value := by
  have hparse := Decoder.parse_eq_some_iff.2 ⟨h, _, hg, rfl⟩
  have hheader : (Decoder.parsed buffer h (front ++ r :: behind)).getAttributeHeader
      kind.type.code = some ⟨kind.type.code, UInt16.ofNat r.value.length,
        20 + (front.map (stride stunFormat)).sum + 4⟩ := by
    rw [Decoder.getAttributeHeader_parsed buffer h _ (StunAttrType.code_ne_zero _)]
    exact find?_wireHeaders hfront hr 20
  have hvalue : (Decoder.parsed buffer h (front ++ r :: behind)).getAttribute kind.Obj =
      some (.ofHmac r.value) := by
    have hnone : front.find? (fun q => q.tag == (StunAttribute.type kind.Obj).code) = none := by
      rw [List.find?_eq_none]
      intro q hq htag
      exact hfront q hq (beq_iff_eq.1 htag)
    have hfirst : (r :: behind).find? (fun q => q.tag == (StunAttribute.type kind.Obj).code) =
        some r := List.find?_cons_of_pos (beq_iff_eq.2 hr)
    rw [Decoder.getAttribute_parsed kind.Obj hg, List.find?_append, hnone, Option.none_or, hfirst]
    exact if_neg (not_not.2 hsize)
  rw [← MessageIntegrityAttrT.compute_ofKey_iff hsize]
  constructor
  · rintro ⟨d, hd, a, hd', hhd, ha, hcheck⟩
    rw [hparse] at hd'
    cases hd'
    rw [hheader] at hhd
    cases hhd
    rw [hvalue] at ha
    cases ha
    exact hcheck
  · intro hcheck
    exact ⟨_, _, _, hparse, hheader, hvalue, hcheck⟩

end Checked

namespace Encoder

section Binds

variable [Platform] {type : UInt16} {tid : TransactionId} {size : Nat} {e : Encoder}

/-- What the HMAC of a sent MESSAGE-INTEGRITY was taken of, in any later message. -/
theorem Outcome.macInput_eq_append (h : Inv type tid size e) {kind : IntegrityKind} {a : kind.Obj}
    {r : AddResult} {f g : Encoder} (hout : Outcome e (.integrity kind a) r f) (hok : r.ok = true)
    (hg : Inv type tid size g) (hext : Extends f g) :
    macInput g.buffer.bytes e.offset kind.expectedSize =
      StunHeader.wire ⟨type, UInt16.ofNat (e.offset - 20 + (4 + kind.expectedSize)), magicCookie,
        tid⟩ ++ slice e.buffer.bytes 20 (e.offset - 20) := by
  have hwhole := hout.extends.trans hext
  have hoff := h.le_offset
  obtain ⟨length, hlength⟩ := hg.header
  have hsealed : g.Sealed := by
    apply hext.sealed_of
    cases hout with
    | refused => cases hok
    | announced => cases hok
    | integrity => exact .inl rfl
  have htake : g.buffer.bytes.take 20 = StunHeader.wire ⟨type, length, magicCookie, tid⟩ := by
    rw [hg.written hsealed, hlength, netHeader_bytes]
  rw [Stunxx.macInput_eq_append htake hoff, hwhole.slice_eq (Nat.le_refl _) (by omega)]

omit [Platform] in
/-- The digest sizes are told apart by the length in the header. -/
theorem kind_of_length {kind kind' : IntegrityKind} {n : Nat}
    (h : UInt16.ofNat (n + (4 + kind'.expectedSize)) = UInt16.ofNat (n + (4 + kind.expectedSize))) :
    kind' = kind := by
  have hmod := congrArg UInt16.toNat h
  rw [UInt16.toNat_ofNat', UInt16.toNat_ofNat'] at hmod
  have hsha1 : IntegrityKind.sha1.expectedSize = 20 := rfl
  have hsha256 : IntegrityKind.sha256.expectedSize = 32 := rfl
  cases kind <;> cases kind' <;> first | rfl | (rw [hsha1, hsha256] at hmod; omega)

/-- **An HMAC vouches for what is in front of it**: if the HMAC that a receiver takes of any bytes
it was given is of the bytes a sender's was taken of, the message has the type and the transaction
ID of the sender's, and it begins with what the sender had added. -/
theorem integrity_binds (type : UInt16) (tid : TransactionId) (buffer : Bytes) (pre : List Call)
    (kind : IntegrityKind) (a : kind.Obj) (post : List Call)
    (hadd : ((run step (new type tid buffer) pre).2.add (.integrity kind a)).1.ok = true)
    (hread : ∀ x ∈ (history step (new type tid buffer) pre).filterMap Call.accepted,
      x.1.Readable tid)
    {received : Bytes} {d : Decoder} (hparse : Decoder.parse received = .ok (some d))
    {kind' : IntegrityKind} {hd : AttrHeader}
    (hfind : d.getAttributeHeader kind'.type.code = some hd)
    (hsame : macInput received (hd.offset - 4) kind'.expectedSize =
      macInput
        (run step ((run step (new type tid buffer) pre).2.add (.integrity kind a)).2
          post).2.buffer.bytes
        (run step (new type tid buffer) pre).2.totalSize kind.expectedSize) :
    kind' = kind ∧ hd.offset - 4 = (run step (new type tid buffer) pre).2.totalSize ∧
      Vouched type tid ((history step (new type tid buffer) pre).filterMap Call.accepted) d := by
  have hinv := (inv_new type tid buffer).run pre
  have hholds := holds_run type tid buffer pre
  generalize (history step (new type tid buffer) pre).filterMap Call.accepted = sent at *
  generalize (run step (new type tid buffer) pre).2 = e at *
  have hout := add_outcome e (.integrity kind a)
  have hsigned := hout.macInput_eq_append hinv hadd ((hinv.outcome hout).run post)
    (extends_run _ post)
  have hoff := hinv.le_offset
  obtain ⟨h, rs, hg, rfl⟩ := Decoder.parse_eq_some_iff.1 hparse
  rw [Decoder.getAttributeHeader_parsed received h rs (StunAttrType.code_ne_zero _)] at hfind
  obtain ⟨front, behind, rfl, hfull, hplace, hend, hinput⟩ :=
    hg.exists_front (List.mem_of_find?_eq_some hfind)
  rw [totalSize, hsigned, hinput] at hsame
  obtain ⟨hheader, hrecords⟩ := List.append_inj hsame (by simp only [StunHeader.length_wire])
  -- the sender's MESSAGE-INTEGRITY and the receiver's stand at one place
  have hle := hinv.offset_le
  have hlen := hinv.length_eq
  have hlens := congrArg List.length hrecords
  rw [length_slice] at hlens
  have hsamePlace : hd.offset - 4 = e.offset := by omega
  rw [hsamePlace] at hheader
  have hfields := StunHeader.wire_inj hheader
  simp only [StunHeader.mk.injEq] at hfields
  obtain ⟨hmsgType, hlength, -, htid⟩ := hfields
  -- and in front of them the same records
  have hlt := h.msgLength.toNat_lt
  obtain ⟨rs, hrs, hslice⟩ := hholds (by omega)
  rw [hslice] at hrecords
  have htiling := tiling_flatMap stunFormat (full_of_carries hrs)
  rw [← hrecords] at htiling
  obtain rfl := (tiling_flatMap stunFormat hfull).unique stunFormat htiling
  have hvouched := hg.vouched hrs (by rwa [htid])
  rw [hmsgType, htid] at hvouched
  exact ⟨kind_of_length hlength, hsamePlace, hvouched⟩

end Binds

/-! ## The sender's message -/

section Passes

variable [Platform] {type : UInt16} {tid : TransactionId} {size : Nat} {e e' : Encoder}

theorem extends_run_add (e : Encoder) (calls : List AddCall) : Extends e (run add e calls).2 :=
  run_invariant add (fun f c _ h => h.trans (add_outcome f c).extends) (.refl e)

/-- A MESSAGE-INTEGRITY without a key is refused. -/
theorem key_ne_nil {kind : IntegrityKind} {a : kind.Obj}
    (hok : (e.add (.integrity kind a)).1.ok = true) : a.key ≠ [] := by
  intro hkey
  have hempty : (e.computed a).1 = false := by
    have hcompute : e.computed a = (false, a) := if_pos (List.isEmpty_iff.2 hkey)
    rw [hcompute]
  simp only [add, addMessageIntegrity_eq, hempty, if_true] at hok
  split at hok <;> cases hok

/-- The first MESSAGE-INTEGRITY of its kind in a finished message passes under the keys that give
the bytes in front of it the HMAC that its own key does, whatever follows the message. -/
theorem sent_integrityChecked_iff {hist hist' : List (AddCall × AddResult)} {f : Encoder}
    {kind : IntegrityKind} {a : kind.Obj} {r : AddResult} (h : Sent type tid size hist e)
    (hadd : Outcome e (.integrity kind a) r f) (hok : r.ok = true)
    (hsent : Sent type tid size (hist ++ (.integrity kind a, r) :: hist') e') (hext : Extends f e')
    (hlast : SealsLast ((hist ++ (.integrity kind a, r) :: hist').map Prod.fst))
    (hfirst : ∀ b, .integrity kind b ∉ hist.map Prod.fst) (hbound : e'.offset - 20 ≤ 65535)
    (behind : Bytes) (key : Bytes) :
    IntegrityChecked kind key (e'.message ++ behind) ↔ key ≠ [] ∧
      Platform.hmac (MessageIntegrityAttrT.md kind.type) key
          (macInput (e'.message ++ behind) e.offset kind.expectedSize) =
        Platform.hmac (MessageIntegrityAttrT.md kind.type) a.key
          (macInput (e'.message ++ behind) e.offset kind.expectedSize) := by
  cases hadd with
  | refused => cases hok
  | announced => cases hok
  | @integrity _ _ digest hroom hdigest hdigestSize =>
    have hwhole := ((extends_sign e kind.type digest).trans hext).trans (extends_finalize e')
    have hsealed := hext.sealed_of (.inl rfl)
    have hsize := hsent.toInv.le_size hsealed
    have hoff := hwhole.offset_le
    have hfinal : e'.finalize.offset = e'.offset := finalize_totalSize e'
    obtain ⟨rs, hrs, hbytes⟩ := hsent.records hbound
    have hg := hsent.grammar hsize hbound (hsent.sealsLast_iff.1 hlast) hrs hbytes
    rw [← finalize_totalSize, ← message] at hg
    obtain ⟨front, rest, rfl, hfront, hrest⟩ := carries_append hrs
    obtain ⟨q, rest, hq, -, rfl⟩ := List.forall₂_cons_left_iff.1 hrest
    have hvalue : q.value = digest := by
      have hcarried := hq.value
      generalize q.value = value at hcarried
      cases hcarried
      rfl
    -- the place of the attribute is the size of the message when it was added
    have hplace : 20 + (front.map (stride stunFormat)).sum = e.offset := by
      obtain ⟨front', hfront', hslice⟩ := h.records (by omega)
      rw [← h.sum_stride hsize hfront' hslice, strides_of_carries hfront,
        strides_of_carries hfront']
    have hinput : macInput (e'.message ++ behind) e.offset kind.expectedSize =
        (e.announce (sealSize kind.type)).buffer.bytes.take e.offset := by
      have hlater := macInput_eq h.toInv hsent.toInv.finalize
        (hsent.toInv.headerWritten_finalize hsize) hwhole hsize kind.expectedSize
      have hlen := hsent.toInv.length_message hsize
      rw [macInput, List.take_append_of_le_length (by rwa [hlen, ← hfinal]), message,
        List.take_take, Nat.min_eq_left (by rwa [finalize_totalSize, ← hfinal])]
      exact hlater
    have hnot : ∀ p ∈ front, p.tag ≠ kind.type.code := by
      intro p hp htag
      obtain ⟨x, hx, hcarries⟩ := exists_carries hfront p hp
      obtain ⟨b, hb⟩ :=
        exists_integrity_of_type (StunAttrType.code_inj (hcarries.tag.symm.trans htag))
      exact hfirst b (hb ▸ List.mem_map_of_mem hx)
    rw [integrityChecked_iff (hg.append behind) hnot hq.tag (by rw [hvalue, hdigestSize]), hplace,
      hinput, hdigest, hvalue]

/-- Ordinary attributes behind a seal leave the sealed message as it was. -/
theorem exists_message_append (h : e.Sealed) {calls : List AddCall}
    (hcalls : ∀ c ∈ calls, c.isSeal = false) :
    ∃ behind, (run add e calls).2.message = e.message ++ behind := by
  have hkept : (run add e calls).2.Sealed ∧ e.offset ≤ (run add e calls).2.offset ∧
      (run add e calls).2.buffer.bytes.take e.offset = e.buffer.bytes.take e.offset := by
    refine @run_invariant _ _ _ add
      (fun f => f.Sealed ∧ e.offset ≤ f.offset ∧
        f.buffer.bytes.take e.offset = e.buffer.bytes.take e.offset)
      calls ?step e ⟨h, Nat.le_refl _, rfl⟩
    rintro f c hc ⟨hsealed, hle, htake⟩
    have hopen := hcalls c hc
    have hout := add_outcome f c
    have hext := hout.extends
    refine ⟨hext.sealed_of hsealed, Nat.le_trans hle hext.offset_le, ?_⟩
    generalize (f.add c).1 = r, (f.add c).2 = g at hout ⊢
    cases hout with
    | refused => exact htake
    | announced => cases hopen
    | @ordinary a => rw [take_append f a.obj hle, htake]
    | integrity => cases hopen
    | fingerprint => cases hopen
  obtain ⟨hsealed, hle, htake⟩ := hkept
  rw [message, message, finalize_of_sealed hsealed, finalize_of_sealed h, totalSize, totalSize,
    take_eq_append_slice _ hle, htake]
  exact ⟨_, rfl⟩

theorem run_integrityChecked_iff {buffer : Bytes} {pre post : List AddCall} {kind : IntegrityKind}
    {a : kind.Obj}
    (hok : ∀ r ∈ (run add (new type tid buffer) (pre ++ .integrity kind a :: post)).1, r.ok = true)
    (hlast : SealsLast (pre ++ .integrity kind a :: post))
    (hfirst : ∀ b, .integrity kind b ∉ pre)
    (hbound : (run add (new type tid buffer) (pre ++ .integrity kind a :: post)).2.offset - 20 ≤
      65535) (behind key : Bytes) :
    let m := (run add (new type tid buffer) (pre ++ .integrity kind a :: post)).2.message ++ behind
    let input := macInput m (run add (new type tid buffer) pre).2.totalSize kind.expectedSize
    IntegrityChecked kind key m ↔ key ≠ [] ∧
      Platform.hmac (MessageIntegrityAttrT.md kind.type) key input =
        Platform.hmac (MessageIntegrityAttrT.md kind.type) a.key input := by
  obtain ⟨hokPre, hokPost⟩ := (forall_run_append add).1 hok
  have hsent := sent_run type tid buffer hok
  have hcalls := map_fst_history add (new type tid buffer) (pre ++ .integrity kind a :: post)
  rw [← hcalls] at hlast
  rw [history_append, history_cons] at hsent hlast
  refine sent_integrityChecked_iff (sent_run type tid buffer hokPre) (add_outcome _ _)
    (hokPost _ List.mem_cons_self) hsent ?_ hlast (by rwa [map_fst_history]) hbound behind key
  rw [run_append]
  exact extends_run_add _ post

/-- **A MESSAGE-INTEGRITY passes under its key**, and under no other key that does not give the same
HMAC: the first one of its kind in a run of adds that succeed, whatever is added behind it. -/
theorem integrity_checked (type : UInt16) (tid : TransactionId) (buffer : Bytes)
    {pre post : List AddCall} {kind : IntegrityKind} {a : kind.Obj}
    (hok : ∀ r ∈ (run add (new type tid buffer) (pre ++ .integrity kind a :: post)).1, r.ok = true)
    (hfirst : ∀ b, .integrity kind b ∉ pre)
    (hbound : (run add (new type tid buffer) (pre ++ .integrity kind a :: post)).2.totalSize - 20 ≤
      65535) :
    let m := (run add (new type tid buffer) (pre ++ .integrity kind a :: post)).2.message
    let input := macInput m (run add (new type tid buffer) pre).2.totalSize kind.expectedSize
    IntegrityChecked kind a.key m ∧ ∀ key, IntegrityChecked kind key m ↔
      key ≠ [] ∧ Platform.hmac (MessageIntegrityAttrT.md kind.type) key input =
        Platform.hmac (MessageIntegrityAttrT.md kind.type) a.key input := by
  intro m input
  -- the header announces the message up to its last seal, what was added then stands behind
  obtain ⟨front, rest, rfl, hrest, last, hlast, hseal⟩ :=
    exists_last_seal (c := .integrity kind a) rfl post
  have hcalls : pre ++ .integrity kind a :: (front ++ rest) =
      (pre ++ .integrity kind a :: front) ++ rest := by simp
  have hrun := run_append add (new type tid buffer) (pre ++ .integrity kind a :: front) rest
  rw [← hcalls] at hrun
  obtain ⟨hokFront, -⟩ := (forall_run_append add).1 (hcalls ▸ hok)
  obtain ⟨-, hokSeal⟩ := (forall_run_append add).1 hokFront
  have hadd : ((run add (new type tid buffer) pre).2.add (.integrity kind a)).1.ok = true :=
    hokSeal _ List.mem_cons_self
  have hsealed : (run add (new type tid buffer) (pre ++ .integrity kind a :: front)).2.Sealed := by
    have hmem : (.integrity kind a, ((run add (new type tid buffer) pre).2.add
        (.integrity kind a)).1) ∈ history add (new type tid buffer)
          (pre ++ .integrity kind a :: front) := by
      rw [history_append]
      exact List.mem_append_right _ List.mem_cons_self
    exact (sent_run type tid buffer hokFront).sealed_iff.2 ⟨_, hmem, rfl⟩
  obtain ⟨behind, hmessage⟩ := exists_message_append hsealed hrest
  have hlater := extends_run_add
    (run add (new type tid buffer) (pre ++ .integrity kind a :: front)).2 rest
  rw [totalSize, hrun] at hbound
  have hiff := run_integrityChecked_iff hokFront
    (.inr ⟨last, by rw [List.getLast?_append, hlast]; rfl, hseal⟩) hfirst
    (Nat.le_trans (Nat.sub_le_sub_right hlater.offset_le 20) hbound) behind
  rw [← hmessage] at hiff
  have hm : m = (run add (run add (new type tid buffer)
      (pre ++ .integrity kind a :: front)).2 rest).2.message := congrArg (·.2.message) hrun
  rw [← hm] at hiff
  exact ⟨(hiff a.key).2 ⟨key_ne_nil hadd, rfl⟩, hiff⟩

end Passes

/-! A message of one PRIORITY with its MESSAGE-INTEGRITY, and the same with a DATA behind it. -/

local instance signingHost : Platform := priorityHost

def extendedHeader : StunHeader := ⟨0x0001, 40, magicCookie, ByteArrayN.zero 12⟩

def extendedAttrs : List WireAttr :=
  [⟨0x0024, [0, 0, 0, 7], []⟩,
    ⟨0x0008, [0xC4, 0xEA, 0x77, 0x33, 0x35, 0xFF, 0x64, 0x67, 0x18, 0x8D, 0x17, 0x4A, 0xEB, 0x53,
      0x91, 0xB4, 0xB2, 0xE9, 0xA9, 0x5C], []⟩,
    ⟨0x0013, [1, 2, 3, 4], []⟩]

def extendedMessage : Bytes := extendedHeader.wire ++ extendedAttrs.flatMap (wire stunFormat)

theorem extendedMessage_grammar : Grammar extendedMessage extendedHeader extendedAttrs := by
  refine Grammar.of_wire rfl ?_ (by decide)
  intro r hr
  simp only [extendedAttrs, List.mem_cons, List.not_mem_nil, or_false] at hr
  rcases hr with rfl | rfl | rfl <;> exact ⟨by decide, rfl⟩

theorem integrity_binds_extended :
    let calls : List Call := [.add (.ordinary ⟨.priority, rfl, ⟨7⟩⟩)]
    Vouched 0x0001 (ByteArrayN.zero 12)
      ((history step (new 0x0001 (ByteArrayN.zero 12) (List.replicate 64 0)) calls).filterMap
        Call.accepted)
      (Decoder.parsed extendedMessage extendedHeader extendedAttrs) := by
  intro calls
  have hfind : (Decoder.parsed extendedMessage extendedHeader extendedAttrs).getAttributeHeader
      IntegrityKind.sha1.type.code = some ⟨0x0008, 20, 32⟩ := by decide +kernel
  have hread : ∀ x ∈ (history step (new 0x0001 (ByteArrayN.zero 12) (List.replicate 64 0))
      calls).filterMap Call.accepted, x.1.Readable (ByteArrayN.zero 12) := by
    intro x hx a ha
    have hmem := List.mem_singleton.1 (mem_of_accepted hx)
    cases ha.symm.trans (Call.add.inj hmem)
    exact ⟨trivial, by decide⟩
  exact (integrity_binds 0x0001 (ByteArrayN.zero 12) (List.replicate 64 0) calls .sha1
    (.ofKey [0x6B, 0x65, 0x79]) [.finalize] (by decide +kernel) hread
    (Decoder.parse_eq_some_iff.2 ⟨_, _, extendedMessage_grammar, rfl⟩) hfind
    (by decide +kernel)).2.2

theorem integrity_checked_priority :
    IntegrityChecked .sha1 [0x6B, 0x65, 0x79]
      (run add (new 0x0001 (ByteArrayN.zero 12) (List.replicate 64 0))
        ([.ordinary ⟨.priority, rfl, ⟨7⟩⟩] ++
          .integrity .sha1 (.ofKey [0x6B, 0x65, 0x79]) :: [.fingerprint])).2.message :=
  (integrity_checked 0x0001 (ByteArrayN.zero 12) (List.replicate 64 0) (by decide +kernel)
    (by simp) (by decide +kernel)).1

end Encoder

end Stunxx
