import Stunxx.Words
import Mathlib.Data.Nat.Bitwise

/-!
# The STUN header and the attribute types

The constants, enumerations and records of `Stun.hpp`. `StunAttrType` is the closed list of
attribute types the library names; `isKnownAttrType` is decided over the same switch.
`AddressFamily` and `PasswordAlgorithm` are enumerations with a fixed underlying type that the
decoders fill by a cast from arbitrary wire bytes, so they are that underlying type here;
`StunErrorCode` is of this kind too.
-/

namespace Stunxx

/-! ## Constants -/

def magicCookie : UInt32 := 0x2112A442

def stunHeaderSize : Nat := 20

def attrHeaderSize : Nat := 4

def stunTransactionIdSize : Nat := 12

attribute [simp] stunHeaderSize attrHeaderSize stunTransactionIdSize

abbrev TransactionId := ByteArrayN stunTransactionIdSize

/-! ## Message type -/

inductive StunClass
  | request
  | indication
  | successResp
  | errorResp
deriving DecidableEq

def StunClass.code : StunClass → UInt16
  | request => 0x0000
  | indication => 0x0010
  | successResp => 0x0100
  | errorResp => 0x0110

inductive StunMethod
  | binding
  | allocate
  | refresh
  | send
  | data
  | createPermission
  | channelBind
  | connect
  | connectionBind
  | connectionAttempt
deriving DecidableEq

def StunMethod.code : StunMethod → UInt16
  | binding => 0x0001
  | allocate => 0x0003
  | refresh => 0x0004
  | send => 0x0006
  | data => 0x0007
  | createPermission => 0x0008
  | channelBind => 0x0009
  | connect => 0x000A
  | connectionBind => 0x000B
  | connectionAttempt => 0x000C

def stunClassMask : UInt16 := 0x0110

/-- `static_cast<uint16_t>(method) | static_cast<uint16_t>(cls)`, as callers build a type. -/
def messageType (method : StunMethod) (cls : StunClass) : UInt16 := method.code ||| cls.code

/-- The class bits of a built type are its class. -/
theorem messageType_class (method : StunMethod) (cls : StunClass) :
    messageType method cls &&& stunClassMask = cls.code := by
  cases method <;> cases cls <;> rfl

/-- The other bits of a built type are its method. -/
theorem messageType_method (method : StunMethod) (cls : StunClass) :
    messageType method cls &&& ~~~stunClassMask = method.code := by
  cases method <;> cases cls <;> rfl

/-- `is_response`, on the code of a class: a received one is cast without a check. -/
def isResponse (cls : UInt16) : Bool := cls &&& 0x0100 != 0

def isRequest (cls : UInt16) : Bool := cls &&& stunClassMask == 0

def isIndication (cls : UInt16) : Bool := cls &&& stunClassMask == 0x0010

/-! ## Attribute types -/

inductive StunAttrType
  | mappedAddress
  | username
  | messageIntegrity
  | errorCode
  | unknownAttributes
  | realm
  | nonce
  | requestedAddressFamily
  | messageIntegritySHA256
  | passwordAlgorithm
  | userHash
  | xorMappedAddress
  | priority
  | useCandidate
  | additionalAddressFamily
  | addressErrorCode
  | passwordAlgorithms
  | alternateDomain
  | software
  | alternateServer
  | fingerprint
  | iceControlled
  | iceControlling
  | channelNumber
  | lifetime
  | xorPeerAddress
  | data
  | xorRelayedAddress
  | evenPort
  | requestedTransport
  | dontFragment
  | reservationToken
  | connectionId
deriving DecidableEq

namespace StunAttrType

def code : StunAttrType → UInt16
  | mappedAddress => 0x0001
  | username => 0x0006
  | messageIntegrity => 0x0008
  | errorCode => 0x0009
  | unknownAttributes => 0x000A
  | realm => 0x0014
  | nonce => 0x0015
  | requestedAddressFamily => 0x0017
  | messageIntegritySHA256 => 0x001C
  | passwordAlgorithm => 0x001D
  | userHash => 0x001E
  | xorMappedAddress => 0x0020
  | priority => 0x0024
  | useCandidate => 0x0025
  | additionalAddressFamily => 0x8000
  | addressErrorCode => 0x8001
  | passwordAlgorithms => 0x8002
  | alternateDomain => 0x8003
  | software => 0x8022
  | alternateServer => 0x8023
  | fingerprint => 0x8028
  | iceControlled => 0x8029
  | iceControlling => 0x802A
  | channelNumber => 0x000C
  | lifetime => 0x000D
  | xorPeerAddress => 0x0012
  | data => 0x0013
  | xorRelayedAddress => 0x0016
  | evenPort => 0x0018
  | requestedTransport => 0x0019
  | dontFragment => 0x001A
  | reservationToken => 0x0022
  | connectionId => 0x002A

/-- The type a code names, if any. -/
def ofCode? (c : UInt16) : Option StunAttrType :=
  [mappedAddress, username, messageIntegrity, errorCode, unknownAttributes, realm, nonce,
    requestedAddressFamily, messageIntegritySHA256, passwordAlgorithm, userHash,
    xorMappedAddress, priority, useCandidate, additionalAddressFamily, addressErrorCode,
    passwordAlgorithms, alternateDomain, software, alternateServer, fingerprint, iceControlled,
    iceControlling, channelNumber, lifetime, xorPeerAddress, data, xorRelayedAddress, evenPort,
    requestedTransport, dontFragment, reservationToken, connectionId].find? (·.code == c)

theorem ofCode?_code (t : StunAttrType) : ofCode? t.code = some t := by
  cases t <;> rfl

theorem code_inj {t u : StunAttrType} (h : t.code = u.code) : t = u := by
  have hread := ofCode?_code t
  rw [h, ofCode?_code] at hread
  exact (Option.some.inj hread).symm

theorem code_ne_zero (t : StunAttrType) : t.code ≠ 0 := by
  cases t <;> decide

end StunAttrType

/-- The switch of `is_known_attr_type`, with its cases in source order. -/
def isKnownAttrType (type : UInt16) : Bool :=
  match StunAttrType.ofCode? type with
  -- comprehension-required
  | some .mappedAddress | some .username | some .messageIntegrity | some .errorCode
  | some .unknownAttributes | some .realm | some .nonce | some .requestedAddressFamily
  | some .messageIntegritySHA256 | some .passwordAlgorithm | some .userHash
  | some .xorMappedAddress | some .priority | some .useCandidate
  -- optional
  | some .additionalAddressFamily | some .addressErrorCode | some .passwordAlgorithms
  | some .alternateDomain | some .software | some .alternateServer | some .fingerprint
  | some .iceControlled | some .iceControlling
  -- TURN
  | some .channelNumber | some .lifetime | some .xorPeerAddress | some .data
  | some .xorRelayedAddress | some .evenPort | some .requestedTransport | some .dontFragment
  | some .reservationToken | some .connectionId => true
  | none => false

/-- The switch lists every enumerator of `StunAttrType`. -/
theorem isKnownAttrType_iff (type : UInt16) :
    isKnownAttrType type = true ↔ ∃ t : StunAttrType, t.code = type := by
  constructor
  · intro h
    cases hcode : StunAttrType.ofCode? type with
    | none =>
      rw [isKnownAttrType, hcode] at h
      cases h
    | some t => exact ⟨t, by simpa using List.find?_some hcode⟩
  · rintro ⟨t, rfl⟩
    rw [isKnownAttrType, StunAttrType.ofCode?_code]
    cases t <;> rfl

@[simp] theorem isKnownAttrType_code (t : StunAttrType) : isKnownAttrType t.code = true :=
  (isKnownAttrType_iff _).2 ⟨t, rfl⟩

def isComprehensionRequired (type : UInt16) : Bool := (type &&& 0x8000) == 0

theorem isComprehensionRequired_iff (type : UInt16) :
    isComprehensionRequired type = true ↔ type < 0x8000 := by
  have hlt := type.toNat_lt
  have htop : (0x8000 : UInt16).toNat = 2 ^ 15 := rfl
  have hbit : (type &&& 0x8000).toNat = type.toNat / 2 ^ 15 % 2 * 2 ^ 15 := by
    rw [UInt16.toNat_and, htop, Nat.and_two_pow, Nat.toNat_testBit]
  rw [isComprehensionRequired, beq_iff_eq, ← UInt16.toNat_inj, hbit, UInt16.lt_iff_toNat_lt, htop,
    UInt16.toNat_zero]
  omega

/-- `AddressFamily`, an enumeration over a byte. -/
structure AddressFamily where
  code : UInt8
deriving DecidableEq

def AddressFamily.ipv4 : AddressFamily := ⟨0x01⟩

def AddressFamily.ipv6 : AddressFamily := ⟨0x02⟩

/-- `PasswordAlgorithm`, an enumeration over 16 bits. -/
structure PasswordAlgorithm where
  code : UInt16
deriving DecidableEq

def PasswordAlgorithm.md5 : PasswordAlgorithm := ⟨0x0001⟩

def PasswordAlgorithm.sha256 : PasswordAlgorithm := ⟨0x0002⟩

/-- `StunErrorCode`, an enumeration over 16 bits. -/
structure StunErrorCode where
  code : UInt16
deriving DecidableEq

namespace StunErrorCode

def tryAlternate : StunErrorCode := ⟨300⟩
def badRequest : StunErrorCode := ⟨400⟩
def unauthenticated : StunErrorCode := ⟨401⟩
def forbidden : StunErrorCode := ⟨403⟩
def unknownAttribute : StunErrorCode := ⟨420⟩
def allocationMismatch : StunErrorCode := ⟨437⟩
def staleNonce : StunErrorCode := ⟨438⟩
def addressFamNotSupported : StunErrorCode := ⟨440⟩
def wrongCredentials : StunErrorCode := ⟨441⟩
def unsupportedTransport : StunErrorCode := ⟨442⟩
def peerAddrFamMismatch : StunErrorCode := ⟨443⟩
def connectionAlreadyExists : StunErrorCode := ⟨446⟩
def connectionTimeoutOrFailure : StunErrorCode := ⟨447⟩
def allocationQuotaReached : StunErrorCode := ⟨486⟩
def serverError : StunErrorCode := ⟨500⟩
def insufficientCapacity : StunErrorCode := ⟨508⟩
def globalFailure : StunErrorCode := ⟨600⟩

end StunErrorCode

/-! ## Headers -/

/-- The bytes `writeHeader` stores over the four bytes of an attribute header. -/
def writeHeader (type len : UInt16) : Bytes := writeBe16 type ++ writeBe16 len

@[simp] theorem length_writeHeader (type len : UInt16) : (writeHeader type len).length = 4 := rfl

/-- The packed message header. The encoder holds its integers in network order, the decoder in
host order. -/
structure StunHeader where
  msgType : UInt16 := 0
  msgLength : UInt16 := 0
  magicCookie : UInt32 := 0
  transactionId : TransactionId := ByteArrayN.zero _
deriving DecidableEq

/-- The 20 bytes of the header in memory. -/
def StunHeader.bytes [Platform] (h : StunHeader) : Bytes :=
  image 2 h.msgType.toNat ++ image 2 h.msgLength.toNat ++ image 4 h.magicCookie.toNat ++
    h.transactionId.val

@[simp] theorem StunHeader.length_bytes [Platform] (h : StunHeader) :
    h.bytes.length = stunHeaderSize := by
  have htid := h.transactionId.property
  simp only [StunHeader.bytes, List.length_append, length_image, htid, stunTransactionIdSize,
    stunHeaderSize]

/-- What the decoder remembers of an attribute: its type, its length and where its value starts. -/
structure AttrHeader where
  type : UInt16 := 0
  len : UInt16 := 0
  offset : Nat := 0
deriving DecidableEq

end Stunxx
