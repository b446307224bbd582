import Stunxx.Verify.BuilderChain
import Stunxx.Verify.Reencode
import Stunxx.Verify.UnknownResponse

/-!
# Answers

A server that could decode a request has what an answer needs: the method and the transaction ID.
`Decoder.respond` encodes attributes under them, with a class of its own. The client that decodes
the answer finds the method and the transaction ID of the request, the class, and the attributes
(`Decoder.respond_delivers`); for an error these start with an ERROR-CODE and its text
(`Decoder.respond_error`).
-/

namespace Stunxx

open Overlay Machine Tlv

/-! ## The type of an answer -/

/-- A class put on a method is read back, and so is the method. -/
theorem method_or_class (w : UInt16) (cls : StunClass) :
    ((w &&& ~~~stunClassMask) ||| cls.code) &&& stunClassMask = cls.code ∧
      ((w &&& ~~~stunClassMask) ||| cls.code) &&& ~~~stunClassMask = w &&& ~~~stunClassMask := by
  have hclass : cls.code &&& stunClassMask = cls.code ∧ cls.code &&& ~~~stunClassMask = 0 := by
    cases cls <;> decide
  have hmask : ~~~stunClassMask &&& stunClassMask = 0 := by decide
  have hright : ∀ x y z : UInt16, (x ||| y) &&& z = (x &&& z) ||| (y &&& z) :=
    fun _ _ _ => UInt16.toBitVec_inj.1 BitVec.and_or_distrib_right
  constructor
  · rw [hright, UInt16.and_assoc, hmask, UInt16.and_zero, UInt16.zero_or, hclass.1]
  · rw [hright, UInt16.and_assoc, UInt16.and_self, hclass.2, UInt16.or_zero]

/-! ## Responding -/

section Respond

variable [Platform]

/-- An answer to the message in `d`, of the class `cls`. -/
def Decoder.respond (d : Decoder) (cls : StunClass) (attrs : List Attr) (buffer : Bytes) :
    List AddResult × Encoder :=
  run Encoder.add (Encoder.new (d.messageMethod ||| cls.code) d.transactionId buffer)
    (attrs.map .ordinary)

/-- What a client finds in an answer to its request `d`. -/
structure Decoder.Answers (e d : Decoder) (cls : StunClass) (attrs : List Attr) : Prop where
  transactionId : e.transactionId = d.transactionId
  messageMethod : e.messageMethod = d.messageMethod
  messageClass : e.messageClass = cls.code
  unknownRequired : e.unknownRequired = []
  getAttributes : ∀ c : AttrClass, c.isOrdinary = true →
    e.getAttributes c.Obj = attrs.filterMap (Attr.as? c)
  getAttribute : ∀ c : AttrClass, c.isOrdinary = true →
    e.getAttribute c.Obj = (attrs.filterMap (Attr.as? c)).head?

/-- Attributes that fit are accepted, and answer the request. -/
theorem Decoder.respond_delivers (d : Decoder) (cls : StunClass) {attrs : List Attr}
    (hlimits : ∀ a ∈ attrs, a.InLimits d.transactionId ∧ a.valueSize ≤ 65535) {buffer : Bytes}
    (hroom : 20 + (attrs.map Attr.size).sum ≤ buffer.length)
    (hbound : (attrs.map Attr.size).sum ≤ 65535) :
    (∀ r ∈ (d.respond cls attrs buffer).1, r.ok = true) ∧
      ∃ e, parse (d.respond cls attrs buffer).2.message = .ok (some e) ∧
        e.Answers d cls attrs := by
  have hvalue : ∀ a ∈ attrs, a.valueSize ≤ 65535 := fun a ha => (hlimits a ha).2
  obtain ⟨hok, hmessage⟩ := Encoder.message_ordinary (d.messageMethod ||| cls.code)
    d.transactionId hvalue hroom
  have hgrammar := grammar_ordinary (d.messageMethod ||| cls.code) d.transactionId hvalue hbound
  rw [← hmessage] at hgrammar
  refine ⟨hok, _, parse_eq_some_iff.2 ⟨_, _, hgrammar, rfl⟩, ?_⟩
  have hreads : ReadsAs d.transactionId (attrs.map Attr.record) attrs := readsAs_record hlimits
  obtain ⟨hclass, hmethod⟩ := method_or_class d.stunHeader.msgType cls
  constructor
  case transactionId => rfl
  case messageMethod => exact hmethod
  case messageClass => exact hclass
  case unknownRequired => exact unknownTypes_record attrs
  case getAttributes => exact fun c hord => (getAttributes_reads hgrammar hreads hord).1
  case getAttribute => exact fun c hord => (getAttributes_reads hgrammar hreads hord).2

/-- The attribute that tells the error. -/
def StunErrorCode.attr (code : StunErrorCode) : Attr := ⟨.errorCode, rfl, .ofCode code⟩

theorem StunErrorCode.valueSize_attr (code : StunErrorCode) : code.attr.valueSize ≤ 34 := by
  have htext := ErrorCodeAttr.length_ofCode_value code
  have hsize : code.attr.valueSize = 4 + (ErrorCodeAttr.ofCode code).value.length :=
    ErrorCodeAttr.length_wireValue (.ofCode code)
  omega

/-- **Any request can be answered with any error**, whatever else the answer carries: the client
finds the request's method and transaction ID, an error response, the code and its text, and the
other attributes. -/
theorem Decoder.respond_error (d : Decoder) {code : StunErrorCode} (hlo : 300 ≤ code.code)
    (hhi : code.code ≤ 699) {more : List Attr}
    (hmore : ∀ a ∈ more, a.InLimits d.transactionId ∧ a.valueSize ≤ 65535) {buffer : Bytes}
    (hroom : 20 + ((code.attr :: more).map Attr.size).sum ≤ buffer.length)
    (hbound : ((code.attr :: more).map Attr.size).sum ≤ 65535) :
    (∀ r ∈ (d.respond .errorResp (code.attr :: more) buffer).1, r.ok = true) ∧
      ∃ e, parse (d.respond .errorResp (code.attr :: more) buffer).2.message = .ok (some e) ∧
        e.Answers d .errorResp (code.attr :: more) ∧
        e.isResponse = true ∧ e.isRequest = false ∧ e.isIndication = false ∧
        e.getAttribute ErrorCodeAttr = some (.ofCode code) := by
  have hsize := code.valueSize_attr
  have hlimits : ∀ a ∈ code.attr :: more, a.InLimits d.transactionId ∧ a.valueSize ≤ 65535 :=
    List.forall_mem_cons.2 ⟨⟨⟨hlo, hhi⟩, by omega⟩, hmore⟩
  obtain ⟨hok, e, hparse, hanswers⟩ := d.respond_delivers .errorResp hlimits hroom hbound
  obtain ⟨hrequest, hindication, hresponse⟩ := kind_of_class hanswers.messageClass
  have hfound := hanswers.getAttribute .errorCode rfl
  have hself : Attr.as? .errorCode code.attr = some (ErrorCodeAttr.ofCode code) :=
    Attr.as?_self code.attr
  rw [List.filterMap_cons_some hself, List.head?_cons] at hfound
  exact ⟨hok, e, hparse, hanswers, hresponse, hrequest, hindication, hfound⟩

end Respond

/-! The request with an attribute of the type 0x7F00 is answered with the error 420. -/

local instance answerHost : Platform := .ofDigest []

theorem Decoder.respond_error_unknown :
    let d := parsed strangeMessage strangeHeader strangeAttrs
    let types : Attr := ⟨.unknownAttributes, rfl, ⟨d.unknownRequired⟩⟩
    let answer := (d.respond .errorResp [StunErrorCode.attr .unknownAttribute, types]
      (List.replicate 56 0)).2.message
    ∃ e, parse answer = .ok (some e) ∧ e.isResponse = true ∧
      e.getAttribute ErrorCodeAttr = some ⟨420, "Unknown Attribute".toUTF8.data.toList⟩ := by
  intro d types answer
  have hmore : ∀ a ∈ [types], a.InLimits d.transactionId ∧ a.valueSize ≤ 65535 := by
    intro a ha
    rw [List.mem_singleton.1 ha]
    exact ⟨trivial, by decide⟩
  obtain ⟨-, e, hparse, -, hresponse, -, -, hfound⟩ :=
    @respond_error _ d .unknownAttribute (by decide) (by decide) [types] hmore
      (List.replicate 56 0) (by decide +kernel) (by decide +kernel)
  exact ⟨e, hparse, hresponse, hfound⟩

end Stunxx
