import Stunxx.Verify.Emitted
import Stunxx.Verify.Integrity
import Stunxx.Verify.RoundTrip

/-!
# Records as attributes

`Attr.read` is what a receiver that knows every class makes of one attribute on the wire: the
object of the one ordinary class whose type the attribute has, if that class decodes its value.
The typed lookups of a message are its attributes read so, sorted by class (`getAttributes_reads`).
What an encoder sent is read as what was added, so no two records are sent alike unless the same
attribute was added (`Carries.sameAttr`).
-/

namespace Stunxx

open Overlay Machine Tlv

namespace AttrClass

def all : List AttrClass :=
  [username, realm, nonce, software, alternateDomain, xorMappedAddr, xorPeerAddr, xorRelayedAddr,
    alternateServer, priority, requestedTrans, lifetime, evenPort, connectionId, errorCode,
    useCandidate, dontFragment, unknownAttributes, reservationToken, data, iceControlled,
    iceControlling, requestedAddressFamily, additionalAddressFamily, channelNumber,
    addressErrorCode, userHash, passwordAlgorithm, passwordAlgorithms, messageIntegritySHA1,
    messageIntegritySHA256, fingerprint]

theorem mem_all (c : AttrClass) : c ∈ all := by cases c <;> decide

end AttrClass

/-- A lookup finds its type and a value that it decodes. -/
theorem valueOf_eq_some_iff {α : Type} [StunAttribute α] {tid : TransactionId} {r : WireAttr}
    {b : α} :
    valueOf α tid r = some b ↔
      r.tag = (StunAttribute.type α).code ∧ StunAttribute.decode tid r.value = some b := by
  by_cases htag : r.tag = (StunAttribute.type α).code
  · rw [valueOf_of_tag_eq htag, and_iff_right htag]
  · rw [valueOf_of_tag_ne htag]
    exact iff_of_false nofun fun h => htag h.1

namespace Attr

variable [Platform] {tid : TransactionId} {r : WireAttr} {a : Attr}

/-- The attribute as an object of class `c`, if that is an ordinary class. -/
def readAs (tid : TransactionId) (r : WireAttr) (c : AttrClass) : Option Attr :=
  if h : c.isOrdinary = true then (valueOf c.Obj tid r).map (Attr.mk c h) else none

/-- What a receiver reads the attribute as. -/
def read (tid : TransactionId) (r : WireAttr) : Option Attr :=
  AttrClass.all.findSome? (readAs tid r)

theorem readAs_eq_some_iff {c : AttrClass} :
    readAs tid r c = some a ↔ a.cls = c ∧ valueOf a.cls.Obj tid r = some a.obj := by
  obtain ⟨cls, hord, obj⟩ := a
  unfold readAs
  constructor
  · intro h
    split at h
    · obtain ⟨b, hb, hmk⟩ := Option.map_eq_some_iff.1 h
      cases hmk
      exact ⟨rfl, hb⟩
    · cases h
  · rintro ⟨rfl, hvalue⟩
    rw [dif_pos hord, hvalue]
    rfl

theorem read_eq_some_iff : read tid r = some a ↔ valueOf a.cls.Obj tid r = some a.obj := by
  constructor
  · intro h
    obtain ⟨c, -, hc⟩ := List.exists_of_findSome?_eq_some h
    exact (readAs_eq_some_iff.1 hc).2
  · intro h
    have hsome : (read tid r).isSome = true :=
      List.findSome?_isSome_iff.2 ⟨a.cls, AttrClass.mem_all a.cls, by
        rw [readAs_eq_some_iff.2 ⟨rfl, h⟩]
        rfl⟩
    obtain ⟨b, hb⟩ := Option.isSome_iff_exists.1 hsome
    obtain ⟨c, -, hc⟩ := List.exists_of_findSome?_eq_some hb
    obtain ⟨rfl, hvalue⟩ := readAs_eq_some_iff.1 hc
    -- the type of the record is the type of both classes
    have hcls : a.cls = b.cls := AttrClass.type_inj (StunAttrType.code_inj
      ((valueOf_eq_some_iff.1 h).1.symm.trans (valueOf_eq_some_iff.1 hvalue).1))
    rw [hb, ← hc]
    exact readAs_eq_some_iff.2 ⟨hcls, h⟩

/-- A class finds in a record what the record is read as. -/
theorem read_bind_as? {c : AttrClass} (hord : c.isOrdinary = true) :
    (read tid r).bind (as? c) = valueOf c.Obj tid r := by
  cases hvalue : valueOf c.Obj tid r with
  | some b =>
    have hread : read tid r = some ⟨c, hord, b⟩ := read_eq_some_iff.2 hvalue
    rw [hread]
    exact as?_self ⟨c, hord, b⟩
  | none =>
    cases hread : read tid r with
    | none => rfl
    | some a =>
      by_cases hcls : a.cls = c
      · subst hcls
        rw [read_eq_some_iff.1 hread] at hvalue
        cases hvalue
      · exact as?_of_ne hcls

/-- What is read is in the limits of its class, and no longer than the value it was read from. -/
theorem limits_of_read (h : read tid r = some a) :
    a.InLimits tid ∧ a.valueSize ≤ r.value.length := by
  have hdec := (valueOf_eq_some_iff.1 (read_eq_some_iff.1 h)).2
  exact ⟨AttrClass.inLimits_of_decode hdec, AttributeSpec.valueSize_le_of_decode tid _ _ hdec⟩

end Attr

/-! ## Messages read as attributes -/

/-- A search for the first element of a kind finds what is first decoded, if all of the kind are. -/
theorem find?_bind_eq_head? {α β : Type} {p : α → Bool} {f : α → Option β} {l : List α}
    (h : ∀ x ∈ l, p x = true → (f x).isSome = true) :
    (l.find? p).bind f = ((l.filter p).filterMap f).head? := by
  induction l with
  | nil => rfl
  | cons x l ih =>
    have hrest := ih fun y hy => h y (List.mem_cons_of_mem x hy)
    by_cases hx : p x = true
    · obtain ⟨y, hy⟩ := Option.isSome_iff_exists.1 (h x List.mem_cons_self hx)
      rw [List.find?_cons_of_pos hx, List.filter_cons_of_pos hx, List.filterMap_cons_some hy,
        Option.bind_some, hy, List.head?_cons]
    · rw [List.find?_cons_of_neg hx, List.filter_cons_of_neg hx, hrest]

section Message

variable [Platform] {tid : TransactionId} {rs : List WireAttr} {attrs : List Attr}

/-- The lookups of an ordinary class deliver what the message is read as, sorted by class. -/
theorem valuesOf_read {c : AttrClass} (hord : c.isOrdinary = true) (tid : TransactionId)
    (rs : List WireAttr) :
    Decoder.valuesOf c.Obj tid rs = (rs.filterMap (Attr.read tid)).filterMap (Attr.as? c) := by
  rw [valuesOf_eq_filterMap, List.filterMap_filterMap]
  exact List.filterMap_congr fun r _ => (Attr.read_bind_as? hord).symm

/-- Every record of a message is read, as the attributes `attrs`. -/
def ReadsAs (tid : TransactionId) (rs : List WireAttr) (attrs : List Attr) : Prop :=
  rs.map (Attr.read tid) = attrs.map some

theorem ReadsAs.filterMap_eq (h : ReadsAs tid rs attrs) : rs.filterMap (Attr.read tid) = attrs := by
  have hmap := congrArg (List.filterMap id) h
  rwa [List.filterMap_map, List.filterMap_map, Function.id_comp, Function.id_comp,
    List.filterMap_some] at hmap

/-- **A message whose attributes are all read** delivers them class by class, and to a lookup of one
the first of its class. -/
theorem getAttributes_reads {buffer : Bytes} {h : StunHeader} (hg : Grammar buffer h rs)
    (hreads : ReadsAs h.transactionId rs attrs) {c : AttrClass} (hord : c.isOrdinary = true) :
    (Decoder.parsed buffer h rs).getAttributes c.Obj = attrs.filterMap (Attr.as? c) ∧
      (Decoder.parsed buffer h rs).getAttribute c.Obj = (attrs.filterMap (Attr.as? c)).head? := by
  have hvalues := valuesOf_read hord h.transactionId rs
  rw [hreads.filterMap_eq] at hvalues
  rw [Decoder.getAttributes_parsed _ hg, Decoder.getAttribute_parsed _ hg, ← hvalues]
  refine ⟨rfl, find?_bind_eq_head? ?_⟩
  intro r hr htag
  have hmem : Attr.read h.transactionId r ∈ attrs.map some := by
    rw [← hreads]
    exact List.mem_map_of_mem hr
  obtain ⟨a, -, ha⟩ := List.mem_map.1 hmem
  obtain ⟨hcode, hdec⟩ := valueOf_eq_some_iff.1 (Attr.read_eq_some_iff.1 ha.symm)
  -- the record has the type of one class only
  have hcls : a.cls = c :=
    AttrClass.type_inj (StunAttrType.code_inj (hcode.symm.trans (beq_iff_eq.1 htag)))
  subst hcls
  rw [hdec]
  rfl

end Message

/-! ## What was sent -/

section Sent

variable [Platform] {type : UInt16} {tid : TransactionId} {size : Nat}
  {hist : List (AddCall × AddResult)} {rs : List WireAttr} {x y : AddCall × AddResult}
  {r : WireAttr}

/-- The ordinary attribute a call adds is one that a receiver can read. -/
def AddCall.Readable (tid : TransactionId) (c : AddCall) : Prop :=
  ∀ a, c = .ordinary a → a.InLimits tid ∧ a.valueSize ≤ 65535

theorem Carries.read_eq {a : Attr} {res : AddResult} (hx : Carries (.ordinary a, res) r)
    (hlimits : AddCall.Readable tid (.ordinary a)) : Attr.read tid r = some a := by
  rw [Attr.read_eq_some_iff, valueOf_ordinary a.ordinary hx hlimits]
  exact a.as?_self

/-- Two successful calls that put the same attribute on the wire. -/
inductive SameAttr : AddCall × AddResult → AddCall × AddResult → Prop
  | ordinary (a : Attr) : SameAttr (.ordinary a, { ok := true }) (.ordinary a, { ok := true })
  | integrity {kind : IntegrityKind} (a b : kind.Obj) (digest : Bytes) :
      SameAttr (.integrity kind a, { ok := true, attr := some ⟨kind, { a with hmac := digest }⟩ })
        (.integrity kind b, { ok := true, attr := some ⟨kind, { b with hmac := digest }⟩ })
  | fingerprint : SameAttr (.fingerprint, { ok := true }) (.fingerprint, { ok := true })

/-- A record tells what was added. -/
theorem Carries.sameAttr (hx : Carries x r) (hy : Carries y r) (hlx : x.1.Readable tid)
    (hly : y.1.Readable tid) : SameAttr x y := by
  have htype : x.1.type = y.1.type := StunAttrType.code_inj (hx.tag.symm.trans hy.tag)
  have hvx := hx.value
  have hvy := hy.value
  generalize hv : r.value = value at hvx
  generalize hw : r.value = value' at hvy
  cases hvx with
  | @ordinary a =>
    cases hvy with
    | @ordinary b =>
      have hread := (hx.read_eq hlx).symm.trans (hy.read_eq hly)
      obtain rfl := Option.some.inj hread
      exact .ordinary a
    | integrity => exact absurd htype.symm (type_ne_of_isSeal rfl a.ordinary)
    | fingerprint => exact absurd htype.symm (type_ne_of_isSeal rfl a.ordinary)
  | @integrity kind a =>
    cases hvy with
    | @ordinary b => exact absurd htype (type_ne_of_isSeal rfl b.ordinary)
    | @integrity kind' b =>
      obtain rfl : kind = kind' := by
        cases kind <;> cases kind' <;> first | rfl | cases htype
      rw [← hv, ← hw]
      exact .integrity a b r.value
    | fingerprint => cases kind <;> cases htype
  | fingerprint fp =>
    cases hvy with
    | @ordinary b => exact absurd htype (type_ne_of_isSeal rfl b.ordinary)
    | @integrity kind b => cases kind <;> cases htype
    | fingerprint => exact .fingerprint

/-- Two histories with the same records added the same attributes. -/
theorem forall₂_sameAttr {hist' : List (AddCall × AddResult)} (hrs : List.Forall₂ Carries hist rs)
    (hrs' : List.Forall₂ Carries hist' rs) (hl : ∀ x ∈ hist, x.1.Readable tid)
    (hl' : ∀ y ∈ hist', y.1.Readable tid) : List.Forall₂ SameAttr hist hist' := by
  induction hrs generalizing hist' with
  | nil =>
    cases hrs'
    exact .nil
  | @cons x r hist rs hx _ ih =>
    cases hrs' with
    | @cons y _ hist' _ hy hrest =>
      have hhead := hx.sameAttr hy (hl x List.mem_cons_self) (hl' y List.mem_cons_self)
      have htail := ih hrest (fun z hz => hl z (List.mem_cons_of_mem x hz))
        fun z hz => hl' z (List.mem_cons_of_mem y hz)
      exact .cons hhead htail

end Sent

/-! ## Messages are told apart -/

namespace Encoder

section Message

variable [Platform] {type : UInt16} {tid : TransactionId} {size : Nat}
  {hist : List (AddCall × AddResult)} {e : Encoder}

/-- The message in the buffer once it is finished. -/
def message (e : Encoder) : Bytes := e.finalize.buffer.bytes.take e.finalize.totalSize

theorem Inv.headerWritten_finalize (h : Inv type tid size e) (hsize : 20 ≤ size) :
    e.finalize.HeaderWritten := by
  by_cases hs : e.Sealed
  · rw [finalize_of_sealed hs]
    exact h.written hs
  · rw [finalize_of_not_sealed hs]
    exact headerWritten_writeLength (h.header_room hsize) _

theorem Inv.length_message (h : Inv type tid size e) (hsize : 20 ≤ size) :
    e.message.length = e.offset := by
  have hle := h.offset_le
  have hlen := h.finalize.length_eq
  rw [message, finalize_totalSize, List.length_take]
  omega

end Message

end Encoder

section Injective

variable [Platform] {type type' : UInt16} {tid tid' : TransactionId}

/-- A message is the records of its calls under a header of its type and transaction ID. -/
theorem Sent.message_eq {size : Nat} {hist : List (AddCall × AddResult)} {e : Encoder}
    (h : Sent type tid size hist e) (hsize : 20 ≤ size) (hbound : e.offset - 20 ≤ 65535) :
    ∃ length rs, List.Forall₂ Carries hist rs ∧
      e.message = StunHeader.wire ⟨type, length, magicCookie, tid⟩ ++
        rs.flatMap (wire stunFormat) := by
  obtain ⟨rs, hrs, hbytes⟩ := h.records hbound
  obtain ⟨length, htake⟩ :=
    h.toInv.finalize.take_eq (h.toInv.headerWritten_finalize hsize) h.le_offset
  refine ⟨length, rs, hrs, ?_⟩
  rw [Encoder.message, Encoder.finalize_totalSize, htake, hbytes]

/-- **No two messages have the same bytes**: whatever was added, in any order, the type, the
transaction ID and the attributes are told by the finished message. -/
theorem Encoder.message_injective {buffer buffer' : Bytes} {calls calls' : List AddCall}
    (hsize : 20 ≤ buffer.length) (hsize' : 20 ≤ buffer'.length)
    (hok : ∀ r ∈ (run add (new type tid buffer) calls).1, r.ok = true)
    (hok' : ∀ r ∈ (run add (new type' tid' buffer') calls').1, r.ok = true)
    (hread : ∀ c ∈ calls, c.Readable tid) (hread' : ∀ c ∈ calls', c.Readable tid')
    (hbound : (run add (new type tid buffer) calls).2.totalSize - 20 ≤ 65535)
    (hsame : (run add (new type tid buffer) calls).2.message =
      (run add (new type' tid' buffer') calls').2.message) :
    type = type' ∧ tid = tid' ∧
      List.Forall₂ SameAttr (history add (new type tid buffer) calls)
        (history add (new type' tid' buffer') calls') := by
  have hsent := sent_run type tid buffer hok
  have hsent' := sent_run type' tid' buffer' hok'
  have hlength := congrArg List.length hsame
  rw [hsent.toInv.length_message hsize, hsent'.toInv.length_message hsize'] at hlength
  rw [totalSize] at hbound
  obtain ⟨length, rs, hrs, heq⟩ := hsent.message_eq hsize hbound
  obtain ⟨length', rs', hrs', heq'⟩ := hsent'.message_eq hsize' (by omega)
  rw [heq, heq'] at hsame
  obtain ⟨hheader, hrecords⟩ := List.append_inj hsame (by simp only [StunHeader.length_wire])
  cases StunHeader.wire_inj hheader
  -- the records are the one tiling of the attribute bytes
  have htiling := tiling_flatMap stunFormat (full_of_carries hrs)
  rw [hrecords] at htiling
  obtain rfl := htiling.unique stunFormat (tiling_flatMap stunFormat (full_of_carries hrs'))
  exact ⟨rfl, rfl, forall₂_sameAttr hrs hrs'
    (fun x hx => hread x.1 (mem_of_mem_history add hx))
    fun y hy => hread' y.1 (mem_of_mem_history add hy)⟩

end Injective

/-! A PRIORITY and a FINGERPRINT, written over zeros and over ones. -/

local instance readingHost : Platform := .ofDigest []

theorem Encoder.message_injective_priority :
    let calls : List AddCall := [.ordinary ⟨.priority, rfl, ⟨7⟩⟩, .fingerprint]
    let e := new 0x0001 (ByteArrayN.zero 12) (List.replicate 40 0)
    let f := new 0x0001 (ByteArrayN.zero 12) (List.replicate 48 0xFF)
    List.Forall₂ SameAttr (history add e calls) (history add f calls) := by
  intro calls e f
  have hread : ∀ c ∈ calls, c.Readable (ByteArrayN.zero 12) := by
    intro c hc a ha
    subst ha
    simp only [calls, List.mem_cons, AddCall.ordinary.injEq, reduceCtorEq, List.not_mem_nil,
      or_false] at hc
    subst hc
    exact ⟨trivial, by decide⟩
  exact (message_injective (by decide) (by decide) (by decide +kernel) (by decide +kernel) hread
    hread (by decide +kernel) (by decide +kernel)).2.2

end Stunxx
