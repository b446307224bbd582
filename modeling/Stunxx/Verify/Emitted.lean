import Stunxx.Verify.EncoderStep

/-!
# What an encoder emits and its decoder reads

`decode` checks its values: the length of a string, the range of an error code and of a channel
number, the family of an address. Every decoded object is in these limits
(`AttrClass.inLimits_of_decode`), and `encode` checks none of them but the size of an HMAC. So a
class reads back what it emits exactly for the objects in its own decoder's range.
-/

namespace Stunxx

open Overlay

namespace AttrClass

/-! ## The range of a decoder -/

/-- The values that the `decode` of a class can return. -/
def InRange : (cls : AttrClass) → cls.Obj → Prop
  | .username, a => a.value.length ≤ 513
  | .realm, a => a.value.length ≤ 763
  | .nonce, a => a.value.length ≤ 763
  | .alternateDomain, a => a.value.length ≤ 763
  | .xorMappedAddr, a => a.addrFamily = .ipv4 ∨ a.addrFamily = .ipv6
  | .xorPeerAddr, a => a.addrFamily = .ipv4 ∨ a.addrFamily = .ipv6
  | .xorRelayedAddr, a => a.addrFamily = .ipv4 ∨ a.addrFamily = .ipv6
  | .alternateServer, a => a.addrFamily = .ipv4 ∨ a.addrFamily = .ipv6
  | .errorCode, a => 300 ≤ a.errorCode ∧ a.errorCode ≤ 699
  | .channelNumber, a => 0x4000 ≤ a.channelNumber ∧ a.channelNumber ≤ 0x7FFF
  | .addressErrorCode, a =>
    (a.family = .ipv4 ∨ a.family = .ipv6) ∧ (a.errorCode = 440 ∨ a.errorCode = 508)
  | .messageIntegritySHA1, a => a.hmac.length = 20
  | .messageIntegritySHA256, a => a.hmac.length = 32
  | _, _ => True

/-- The transaction ID is the one an XOR address was built with. -/
def SameTransaction : (cls : AttrClass) → cls.Obj → TransactionId → Prop
  | .xorMappedAddr, a, tid => a.transactionId = tid
  | .xorPeerAddr, a, tid => a.transactionId = tid
  | .xorRelayedAddr, a, tid => a.transactionId = tid
  | .alternateServer, a, tid => a.transactionId = tid
  | _, _, _ => True

/-- The object has no key; only a MESSAGE-INTEGRITY can have one, and it is never sent. -/
def Keyless : (cls : AttrClass) → cls.Obj → Prop
  | .messageIntegritySHA1, a => a.key = []
  | .messageIntegritySHA256, a => a.key = []
  | _, _ => True

/-- The object without its key. -/
def onWire : (cls : AttrClass) → cls.Obj → cls.Obj
  | .messageIntegritySHA1, a => .ofHmac a.hmac
  | .messageIntegritySHA256, a => .ofHmac a.hmac
  | _, a => a

theorem exists_sameTransaction (cls : AttrClass) (a : cls.Obj) :
    ∃ tid, cls.SameTransaction a tid := by
  cases cls
  case xorMappedAddr | xorPeerAddr | xorRelayedAddr | alternateServer =>
    exact ⟨a.transactionId, rfl⟩
  all_goals exact ⟨ByteArrayN.zero 12, trivial⟩

theorem onWire_of_keyless {cls : AttrClass} {a : cls.Obj} (h : cls.Keyless a) :
    cls.onWire a = a := by
  cases cls
  case messageIntegritySHA1 | messageIntegritySHA256 =>
    obtain ⟨key, hmac⟩ := a
    obtain rfl : key = [] := h
    rfl
  all_goals rfl

@[simp] theorem sameTransaction_onWire {cls : AttrClass} {a : cls.Obj} {tid : TransactionId} :
    cls.SameTransaction (cls.onWire a) tid = cls.SameTransaction a tid := by
  cases cls <;> rfl

@[simp] theorem inRange_onWire {cls : AttrClass} {a : cls.Obj} :
    cls.InRange (cls.onWire a) = cls.InRange a := by
  cases cls <;> rfl

theorem keyless_onWire {cls : AttrClass} {a : cls.Obj} : cls.Keyless (cls.onWire a) := by
  cases cls
  case messageIntegritySHA1 | messageIntegritySHA256 => rfl
  all_goals trivial

section Range

variable [Platform] {cls : AttrClass}

@[simp] theorem valueSize_onWire {a : cls.Obj} :
    AttributeSpec.valueSize (cls.onWire a) = AttributeSpec.valueSize a := by
  cases cls <;> rfl

@[simp] theorem wireValue_onWire {a : cls.Obj} :
    AttributeSpec.wireValue (cls.onWire a) = AttributeSpec.wireValue a := by
  cases cls <;> rfl

/-- **A decoder returns only values in its limits.** -/
theorem inLimits_of_decode {tid : TransactionId} {bs : Bytes} {a : cls.Obj}
    (h : StunAttribute.decode tid bs = some a) : AttributeSpec.InLimits tid a := by
  cases cls
  case username | realm | nonce | software | alternateDomain =>
    exact StringAttrT.limit_of_decode h
  case xorMappedAddr | xorPeerAddr | xorRelayedAddr | alternateServer =>
    exact XorAddressAttrT.limits_of_decode h
  case errorCode => exact ErrorCodeAttr.range_of_decode h
  case channelNumber => exact ChannelNumberAttr.range_of_decode h
  case addressErrorCode => exact AddressErrorCodeAttr.limits_of_decode h
  case messageIntegritySHA1 | messageIntegritySHA256 =>
    exact MessageIntegrityAttrT.hmac_of_decode h
  all_goals trivial

theorem keyless_of_decode {tid : TransactionId} {bs : Bytes} {a : cls.Obj}
    (h : StunAttribute.decode tid bs = some a) : cls.Keyless a := by
  cases cls
  case messageIntegritySHA1 | messageIntegritySHA256 =>
    exact (MessageIntegrityAttrT.hmac_of_decode h).1
  all_goals trivial

/-- The limits of a decoder are its range, its transaction ID and the absence of a key. -/
theorem inLimits_iff {tid : TransactionId} {a : cls.Obj}
    (hsize : AttributeSpec.valueSize a ≤ 65535) :
    AttributeSpec.InLimits tid a ↔ cls.SameTransaction a tid ∧ cls.InRange a ∧ cls.Keyless a := by
  cases cls
  case username | realm | nonce | alternateDomain =>
    exact ⟨fun h => ⟨trivial, h, trivial⟩, fun h => h.2.1⟩
  case software =>
    have hmax : a.value.length ≤ sizeMax := Nat.le_trans hsize (by unfold sizeMax; omega)
    exact ⟨fun _ => ⟨trivial, trivial, trivial⟩, fun _ => hmax⟩
  case xorMappedAddr | xorPeerAddr | xorRelayedAddr | alternateServer =>
    exact ⟨fun h => ⟨h.1, h.2, trivial⟩, fun h => ⟨h.1, h.2.1⟩⟩
  case errorCode | channelNumber | addressErrorCode =>
    exact ⟨fun h => ⟨trivial, h, trivial⟩, fun h => h.2.1⟩
  case messageIntegritySHA1 | messageIntegritySHA256 =>
    exact ⟨fun h => ⟨trivial, h.2, h.1⟩, fun h => ⟨h.2.2, h.2.1⟩⟩
  all_goals exact ⟨fun _ => ⟨trivial, trivial, trivial⟩, fun _ => trivial⟩

/-- A value decodes to the object it was encoded from exactly in the limits. -/
theorem decode_wireValue_iff {tid : TransactionId} {a : cls.Obj}
    (hsize : AttributeSpec.valueSize a ≤ 65535) :
    StunAttribute.decode tid (AttributeSpec.wireValue a) = some a ↔
      cls.SameTransaction a tid ∧ cls.InRange a ∧ cls.Keyless a := by
  rw [← inLimits_iff hsize]
  constructor
  · exact inLimits_of_decode
  · intro h
    exact AttributeSpec.decode_wireValue tid a h (Nat.lt_succ_of_le hsize)

/-- The same, up to the key. -/
theorem decode_onWire_iff {tid : TransactionId} {a : cls.Obj}
    (hsize : AttributeSpec.valueSize a ≤ 65535) :
    (∃ b : cls.Obj, StunAttribute.decode tid (AttributeSpec.wireValue a) = some b ∧
      cls.onWire b = cls.onWire a) ↔ cls.SameTransaction a tid ∧ cls.InRange a := by
  have hlimits : StunAttribute.decode tid (AttributeSpec.wireValue a) = some (cls.onWire a) ↔
      cls.SameTransaction a tid ∧ cls.InRange a := by
    rw [← wireValue_onWire, decode_wireValue_iff (by rwa [valueSize_onWire]),
      sameTransaction_onWire, inRange_onWire, and_iff_left keyless_onWire]
  rw [← hlimits]
  constructor
  · rintro ⟨b, hb, hsame⟩
    rwa [← hsame, onWire_of_keyless (keyless_of_decode hb)]
  · intro h
    exact ⟨cls.onWire a, h, onWire_of_keyless keyless_onWire⟩

/-! ## What is emitted -/

/-- The value bytes an attribute has behind its header, after `encode` wrote it over `xs`. -/
def writtenValue (cls : AttrClass) (a : cls.Obj) (xs : Bytes) : Bytes :=
  slice (patch xs 0 (StunAttribute.encode a xs.length).2) attrHeaderSize (StunAttribute.length a)

/-- Whatever `encode` emits, `decode` reads back, up to the key. -/
def Emits (cls : AttrClass) (a : cls.Obj) : Prop :=
  ∀ (xs : Bytes) (tid : TransactionId), cls.SameTransaction a tid →
    (StunAttribute.encode a xs.length).1 = true →
    ∃ b : cls.Obj, StunAttribute.decode tid (cls.writtenValue a xs) = some b ∧
      cls.onWire b = cls.onWire a

/-- Values outside the decoder's range are not emitted. -/
def Refuses (cls : AttrClass) (a : cls.Obj) : Prop :=
  ¬cls.InRange a → ∀ size, (StunAttribute.encode a size).1 = false

/-- What is written is the value. -/
theorem writtenValue_eq {a : cls.Obj} (hsize : AttributeSpec.valueSize a ≤ 65535) {xs : Bytes}
    (hok : (StunAttribute.encode a xs.length).1 = true) :
    cls.writtenValue a xs = AttributeSpec.wireValue a := Encoder.writtenValue_eq hsize hok

/-- An object that is not refused is emitted. -/
theorem exists_emitted {a : cls.Obj} (hready : AttributeSpec.ready a = true) :
    ∃ (xs : Bytes) (tid : TransactionId),
      cls.SameTransaction a tid ∧ (StunAttribute.encode a xs.length).1 = true := by
  obtain ⟨tid, htid⟩ := cls.exists_sameTransaction a
  refine ⟨List.replicate (AttributeSpec.room a) 0, tid, htid, ?_⟩
  rw [AttributeSpec.encode_ok_iff, List.length_replicate]
  exact ⟨hready, Nat.le_refl _⟩

theorem emits_iff_inRange {a : cls.Obj} (hsize : AttributeSpec.valueSize a ≤ 65535) :
    cls.Emits a ↔ (AttributeSpec.ready a = true → cls.InRange a) := by
  constructor
  · intro h hready
    obtain ⟨xs, tid, htid, hok⟩ := exists_emitted hready
    have hread := h xs tid htid hok
    rw [writtenValue_eq hsize hok, decode_onWire_iff hsize] at hread
    exact hread.2
  · intro h xs tid htid hok
    rw [writtenValue_eq hsize hok, decode_onWire_iff hsize]
    exact ⟨htid, h (AttributeSpec.encode_ok_iff.1 hok).1⟩

/-- `Emits` with the key counted among the fields that must come back. -/
theorem emits_key_iff {a : cls.Obj} (hsize : AttributeSpec.valueSize a ≤ 65535) :
    (∀ (xs : Bytes) (tid : TransactionId), cls.SameTransaction a tid →
      (StunAttribute.encode a xs.length).1 = true →
        StunAttribute.decode tid (cls.writtenValue a xs) = some a) ↔
      (AttributeSpec.ready a = true → cls.InRange a ∧ cls.Keyless a) := by
  constructor
  · intro h hready
    obtain ⟨xs, tid, htid, hok⟩ := exists_emitted hready
    have hread := h xs tid htid hok
    rw [writtenValue_eq hsize hok, decode_wireValue_iff hsize] at hread
    exact hread.2
  · intro h xs tid htid hok
    rw [writtenValue_eq hsize hok, decode_wireValue_iff hsize]
    exact ⟨htid, h (AttributeSpec.encode_ok_iff.1 hok).1⟩

theorem refuses_iff {a : cls.Obj} :
    cls.Refuses a ↔ (AttributeSpec.ready a = true → cls.InRange a) := by
  constructor
  · intro h hready
    by_contra hrange
    have hok := AttributeSpec.encode_ok_iff.2 ⟨hready, Nat.le_refl (AttributeSpec.room a)⟩
    rw [h hrange] at hok
    cases hok
  · intro h hrange size
    cases hok : (StunAttribute.encode a size).1 with
    | false => rfl
    | true => exact absurd (h (AttributeSpec.encode_ok_iff.1 hok).1) hrange

/-- **When a class reads back what it emits**, and refuses what it would not: the object is in the
range of its decoder, or it is a MESSAGE-INTEGRITY without an HMAC of the right size, which is
refused. The key is not part of what is emitted: where it counts as a field, there must be none. -/
theorem emits_iff {a : cls.Obj} (hsize : AttributeSpec.valueSize a ≤ 65535) :
    (cls.Emits a ↔ (AttributeSpec.ready a = true → cls.InRange a)) ∧
    (cls.Refuses a ↔ (AttributeSpec.ready a = true → cls.InRange a)) ∧
    ((∀ (xs : Bytes) (tid : TransactionId), cls.SameTransaction a tid →
      (StunAttribute.encode a xs.length).1 = true →
        StunAttribute.decode tid (cls.writtenValue a xs) = some a) ↔
      (AttributeSpec.ready a = true → cls.InRange a ∧ cls.Keyless a)) :=
  ⟨emits_iff_inRange hsize, refuses_iff, emits_key_iff hsize⟩

end Range

section Witness

local instance emittedHost : Platform := .ofDigest []

/-- ERROR-CODE 420 comes back. -/
theorem emits_iff_error_code : AttrClass.errorCode.Emits ⟨420, []⟩ := by
  have hrange : AttrClass.errorCode.InRange ⟨420, []⟩ := ⟨by decide, by decide⟩
  exact (@emits_iff _ .errorCode ⟨420, []⟩ (by decide)).1.2 fun _ => hrange

/-- ERROR-CODE 1150 comes back as 350, and channel 0x1234 does not come back at all. -/
theorem out_of_range_emitted :
    (StunAttribute.encode (⟨1150, []⟩ : ErrorCodeAttr) 8).1 = true ∧
      ErrorCodeAttr.decode (AttrClass.errorCode.writtenValue ⟨1150, []⟩ (List.replicate 8 0)) =
        some ⟨350, []⟩ ∧
      ¬AttrClass.errorCode.Emits ⟨1150, []⟩ ∧ ¬AttrClass.errorCode.Refuses ⟨1150, []⟩ ∧
      (StunAttribute.encode (⟨0x1234⟩ : ChannelNumberAttr) 8).1 = true ∧
      ChannelNumberAttr.decode
        (AttrClass.channelNumber.writtenValue ⟨0x1234⟩ (List.replicate 8 0)) = none := by
  have hread : ErrorCodeAttr.decode
      (AttrClass.errorCode.writtenValue ⟨1150, []⟩ (List.replicate 8 0)) = some ⟨350, []⟩ := by
    decide +kernel
  refine ⟨rfl, hread, ?_, ?_, rfl, by decide +kernel⟩
  · intro hemits
    obtain ⟨b, hb, hsame⟩ := hemits (List.replicate 8 0) (ByteArrayN.zero 12) trivial rfl
    have hcode : b = ⟨350, []⟩ := Option.some.inj (hb.symm.trans hread)
    rw [hcode] at hsame
    exact absurd hsame (by decide)
  · intro hrefuses
    have hout : ¬AttrClass.errorCode.InRange ⟨1150, []⟩ := fun h => absurd h.2 (by decide)
    exact absurd (hrefuses hout 8) (by decide)

end Witness

end AttrClass

end Stunxx
