import Stunxx.Attributes.Fixed
import Stunxx.Attributes.Integrity
import Stunxx.Attributes.Lists
import Stunxx.Attributes.Text
import Stunxx.Attributes.XorAddress

/-!
# The attribute classes of the library

`AttrClass` names the classes behind the type aliases of the attribute headers. Each has its own
type code (`AttrClass.type_inj`), so an object is found again by the code of its class. `Attr` is an
object the unconstrained `addAttribute` overload takes: its class is neither a MESSAGE-INTEGRITY
nor the FINGERPRINT, and such an object always encodes when it fits.
-/

namespace Stunxx

open Overlay

inductive AttrClass
  | username
  | realm
  | nonce
  | software
  | alternateDomain
  | xorMappedAddr
  | xorPeerAddr
  | xorRelayedAddr
  | alternateServer
  | priority
  | requestedTrans
  | lifetime
  | evenPort
  | connectionId
  | errorCode
  | useCandidate
  | dontFragment
  | unknownAttributes
  | reservationToken
  | data
  | iceControlled
  | iceControlling
  | requestedAddressFamily
  | additionalAddressFamily
  | channelNumber
  | addressErrorCode
  | userHash
  | passwordAlgorithm
  | passwordAlgorithms
  | messageIntegritySHA1
  | messageIntegritySHA256
  | fingerprint
deriving DecidableEq

namespace AttrClass

/-- The type behind a class's alias. -/
@[reducible] def Obj : AttrClass → Type
  | username => UsernameAttr
  | realm => RealmAttr
  | nonce => NonceAttr
  | software => SoftwareAttr
  | alternateDomain => AlternateDomainAttr
  | xorMappedAddr => XorMappedAddrAttr
  | xorPeerAddr => XorPeerAddrAttr
  | xorRelayedAddr => XorRelayedAddrAttr
  | alternateServer => AlternateServerAttr
  | priority => PriorityAttr
  | requestedTrans => RequestedTransAttr
  | lifetime => LifetimeAttr
  | evenPort => EvenPortAttr
  | connectionId => ConnectionIdAttr
  | errorCode => ErrorCodeAttr
  | useCandidate => UseCandidateAttr
  | dontFragment => DontFragmentAttr
  | unknownAttributes => UnknownAttributesAttr
  | reservationToken => ReservationTokenAttr
  | data => DataAttr
  | iceControlled => IceControlledAttr
  | iceControlling => IceControllingAttr
  | requestedAddressFamily => RequestedAddressFamilyAttr
  | additionalAddressFamily => AdditionalAddressFamilyAttr
  | channelNumber => ChannelNumberAttr
  | addressErrorCode => AddressErrorCodeAttr
  | userHash => UserHashAttr
  | passwordAlgorithm => PasswordAlgorithmAttr
  | passwordAlgorithms => PasswordAlgorithmsAttr
  | messageIntegritySHA1 => MessageIntegritySHA1Attr
  | messageIntegritySHA256 => MessageIntegritySHA256Attr
  | fingerprint => FingerprintAttr

instance [Platform] : (cls : AttrClass) → AttributeSpec cls.Obj
  | username => inferInstanceAs (AttributeSpec UsernameAttr)
  | realm => inferInstanceAs (AttributeSpec RealmAttr)
  | nonce => inferInstanceAs (AttributeSpec NonceAttr)
  | software => inferInstanceAs (AttributeSpec SoftwareAttr)
  | alternateDomain => inferInstanceAs (AttributeSpec AlternateDomainAttr)
  | xorMappedAddr => inferInstanceAs (AttributeSpec XorMappedAddrAttr)
  | xorPeerAddr => inferInstanceAs (AttributeSpec XorPeerAddrAttr)
  | xorRelayedAddr => inferInstanceAs (AttributeSpec XorRelayedAddrAttr)
  | alternateServer => inferInstanceAs (AttributeSpec AlternateServerAttr)
  | priority => inferInstanceAs (AttributeSpec PriorityAttr)
  | requestedTrans => inferInstanceAs (AttributeSpec RequestedTransAttr)
  | lifetime => inferInstanceAs (AttributeSpec LifetimeAttr)
  | evenPort => inferInstanceAs (AttributeSpec EvenPortAttr)
  | connectionId => inferInstanceAs (AttributeSpec ConnectionIdAttr)
  | errorCode => inferInstanceAs (AttributeSpec ErrorCodeAttr)
  | useCandidate => inferInstanceAs (AttributeSpec UseCandidateAttr)
  | dontFragment => inferInstanceAs (AttributeSpec DontFragmentAttr)
  | unknownAttributes => inferInstanceAs (AttributeSpec UnknownAttributesAttr)
  | reservationToken => inferInstanceAs (AttributeSpec ReservationTokenAttr)
  | data => inferInstanceAs (AttributeSpec DataAttr)
  | iceControlled => inferInstanceAs (AttributeSpec IceControlledAttr)
  | iceControlling => inferInstanceAs (AttributeSpec IceControllingAttr)
  | requestedAddressFamily => inferInstanceAs (AttributeSpec RequestedAddressFamilyAttr)
  | additionalAddressFamily => inferInstanceAs (AttributeSpec AdditionalAddressFamilyAttr)
  | channelNumber => inferInstanceAs (AttributeSpec ChannelNumberAttr)
  | addressErrorCode => inferInstanceAs (AttributeSpec AddressErrorCodeAttr)
  | userHash => inferInstanceAs (AttributeSpec UserHashAttr)
  | passwordAlgorithm => inferInstanceAs (AttributeSpec PasswordAlgorithmAttr)
  | passwordAlgorithms => inferInstanceAs (AttributeSpec PasswordAlgorithmsAttr)
  | messageIntegritySHA1 => inferInstanceAs (AttributeSpec MessageIntegritySHA1Attr)
  | messageIntegritySHA256 => inferInstanceAs (AttributeSpec MessageIntegritySHA256Attr)
  | fingerprint => inferInstanceAs (AttributeSpec FingerprintAttr)

variable [Platform]

/-- The type code of a class. -/
def type (cls : AttrClass) : StunAttrType := StunAttribute.type cls.Obj

/-- No two classes share a type code. -/
theorem type_inj {c d : AttrClass} (h : c.type = d.type) : c = d := by
  have hread : ∀ c : AttrClass, [username, realm, nonce, software, alternateDomain, xorMappedAddr,
      xorPeerAddr, xorRelayedAddr, alternateServer, priority, requestedTrans, lifetime, evenPort,
      connectionId, errorCode, useCandidate, dontFragment, unknownAttributes, reservationToken,
      data, iceControlled, iceControlling, requestedAddressFamily, additionalAddressFamily,
      channelNumber, addressErrorCode, userHash, passwordAlgorithm, passwordAlgorithms,
      messageIntegritySHA1, messageIntegritySHA256, fingerprint].find? (·.type == c.type) =
      some c := by
    intro c
    cases c <;> rfl
  have hc := hread c
  rw [h, hread d] at hc
  exact (Option.some.inj hc).symm

/-- The constraint of the unconstrained overload of `addAttribute`. -/
def isOrdinary : AttrClass → Bool
  | messageIntegritySHA1 | messageIntegritySHA256 | fingerprint => false
  | _ => true

end AttrClass

/-- An object of an ordinary attribute class. -/
structure Attr where
  cls : AttrClass
  ordinary : cls.isOrdinary = true
  obj : cls.Obj

namespace Attr

variable [Platform]

/-- The size of the value, before any cast. -/
def valueSize (a : Attr) : Nat := AttributeSpec.valueSize a.obj

def InLimits (tid : TransactionId) (a : Attr) : Prop := AttributeSpec.InLimits tid a.obj

/-- An ordinary attribute encodes whenever there is room. -/
theorem ready (a : Attr) : AttributeSpec.ready a.obj = true := by
  obtain ⟨cls, hord, obj⟩ := a
  cases cls <;> first | rfl | cases hord

end Attr

/-- The two MESSAGE-INTEGRITY classes. -/
inductive IntegrityKind
  | sha1
  | sha256
deriving DecidableEq

namespace IntegrityKind

def type : IntegrityKind → StunAttrType
  | sha1 => .messageIntegrity
  | sha256 => .messageIntegritySHA256

/-- The object type of a kind. -/
abbrev Obj (kind : IntegrityKind) : Type := MessageIntegrityAttrT kind.type

def expectedSize (kind : IntegrityKind) : Nat := MessageIntegrityAttrT.expectedSize kind.type

end IntegrityKind

end Stunxx
