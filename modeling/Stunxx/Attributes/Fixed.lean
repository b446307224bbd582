import Stunxx.Span
import Stunxx.Crc32

/-!
# Attributes with a value of fixed size

`NumericAttrT.hpp` with its two specialisations, `IceControlAttr.hpp`, `MarkerAttrT.hpp`,
`ReservationAttr.hpp`, `UserHashAttr.hpp`, `ChannelNumberAttr.hpp`, `AddressFamilyAttrT.hpp` and
`FingerprintAttr.hpp`. Their stores follow one another, so `AttributeSpec.ofContiguous` covers
them all.
-/

namespace Stunxx

open Overlay

/-- A single copy of a value whose size is a multiple of four. -/
theorem items_memcpy {bs : Bytes} (h : roundUp4 bs.length = bs.length) :
    [memcpy attrHeaderSize bs].flatMap Patch.items = bs ++ padding bs.length := by
  simp [padding, h]

/-! ## NumericAttrT -/

/-- `template<StunAttrType T> class NumericAttrT`. -/
structure NumericAttrT (T : StunAttrType) where
  value : UInt32 := 0
deriving DecidableEq

namespace NumericAttrT

variable {T : StunAttrType}

def length (_ : NumericAttrT T) : UInt16 := 4

def decode : Bytes → Option (NumericAttrT T)
  | b0 :: b1 :: b2 :: b3 :: _ => some ⟨readBe32 b0 b1 b2 b3⟩
  | _ => none

def body (a : NumericAttrT T) : List Store := [memcpy attrHeaderSize (writeBe32 a.value)]

def encode (a : NumericAttrT T) (size : Nat) : Bool × List Store :=
  if size < a.length.toNat + attrHeaderSize then (false, [])
  else (true, memcpy 0 (writeHeader T.code a.length) :: a.body)

instance : StunAttribute (NumericAttrT T) where
  type := T
  length a := a.length.toNat
  encode := encode
  decode _ := decode

theorem length_of_decode {bs : Bytes} {a : NumericAttrT T} (h : decode bs = some a) :
    4 ≤ bs.length := by
  unfold decode at h
  split at h
  · simp
  · cases h

instance : AttributeSpec (NumericAttrT T) :=
  .ofContiguous body (fun _ => 4) (fun a => writeBe32 a.value) (fun _ _ => True) (fun _ _ => rfl)
    (fun _ => rfl) (fun _ => by simp [roundUp4]) (fun _ => ⟨rfl, trivial⟩)
    (fun _ => by simp [body, padding, roundUp4])
    (fun _ a _ _ => congrArg (fun v => some (NumericAttrT.mk v)) (readBe32_of_writeBe32 rfl))
    (fun _ _ _ h => length_of_decode h)

end NumericAttrT

abbrev PriorityAttr := NumericAttrT .priority
abbrev LifetimeAttr := NumericAttrT .lifetime
abbrev ConnectionIdAttr := NumericAttrT .connectionId

/-- The specialisation `NumericAttrT<StunAttrType::RequestedTransport>`. -/
structure RequestedTransAttr where
  protocol : UInt8 := 0
deriving DecidableEq

namespace RequestedTransAttr

def valueSize : Nat := 4

def length (_ : RequestedTransAttr) : UInt16 := UInt16.ofNat valueSize

def decode : Bytes → Option RequestedTransAttr
  | [b0, _, _, _] => some ⟨b0⟩
  | _ => none

def body (a : RequestedTransAttr) : List Store :=
  [memcpy attrHeaderSize [a.protocol], memcpy (attrHeaderSize + 1) [0],
    memcpy (attrHeaderSize + 2) [0], memcpy (attrHeaderSize + 3) [0]]

def encode (a : RequestedTransAttr) (size : Nat) : Bool × List Store :=
  if size < attrHeaderSize + valueSize then (false, [])
  else
    (true, memcpy 0 (writeHeader StunAttrType.requestedTransport.code (UInt16.ofNat valueSize)) ::
      a.body)

instance : StunAttribute RequestedTransAttr where
  type := .requestedTransport
  length a := a.length.toNat
  encode := encode
  decode _ := decode

theorem length_of_decode {bs : Bytes} {a : RequestedTransAttr} (h : decode bs = some a) :
    bs.length = 4 := by
  unfold decode at h
  split at h
  · rfl
  · cases h

instance : AttributeSpec RequestedTransAttr :=
  .ofContiguous body (fun _ => valueSize) (fun a => [a.protocol, 0, 0, 0]) (fun _ _ => True)
    (fun _ _ => rfl) (fun _ => rfl) (fun _ => by simp [roundUp4, valueSize])
    (fun _ => ⟨rfl, rfl, rfl, rfl, trivial⟩)
    (fun _ => by simp [body, padding, roundUp4])
    (fun _ _ _ _ => rfl) (fun _ _ _ h => (length_of_decode h).ge)

end RequestedTransAttr

/-- The specialisation `NumericAttrT<StunAttrType::EvenPort>`. -/
structure EvenPortAttr where
  reservePair : Bool := false
deriving DecidableEq

namespace EvenPortAttr

def valueSize : Nat := 1

def length (_ : EvenPortAttr) : UInt16 := UInt16.ofNat valueSize

def paddedLength (_ : EvenPortAttr) : Nat := 4

def decode : Bytes → Option EvenPortAttr
  | b0 :: _ => some ⟨b0 &&& 0x80 != 0⟩
  | [] => none

def body (a : EvenPortAttr) : List Store :=
  [memcpy attrHeaderSize [if a.reservePair then 0x80 else 0x00], memcpy (attrHeaderSize + 1) [0],
    memcpy (attrHeaderSize + 2) [0], memcpy (attrHeaderSize + 3) [0]]

def encode (a : EvenPortAttr) (size : Nat) : Bool × List Store :=
  if size < attrHeaderSize + a.paddedLength then (false, [])
  else
    (true, memcpy 0 (writeHeader StunAttrType.evenPort.code (UInt16.ofNat valueSize)) :: a.body)

instance : StunAttribute EvenPortAttr where
  type := .evenPort
  length a := a.length.toNat
  encode := encode
  decode _ := decode

theorem length_of_decode {bs : Bytes} {a : EvenPortAttr} (h : decode bs = some a) :
    1 ≤ bs.length := by
  unfold decode at h
  split at h
  · simp
  · cases h

theorem decode_wireValue (a : EvenPortAttr) :
    decode [if a.reservePair then 0x80 else 0x00] = some a := by
  obtain ⟨pair⟩ := a
  cases pair <;> rfl

instance : AttributeSpec EvenPortAttr :=
  .ofContiguous body paddedLength (fun a => [if a.reservePair then 0x80 else 0x00])
    (fun _ _ => True) (fun _ _ => rfl) (fun _ => rfl) (fun _ => by simp [paddedLength, roundUp4])
    (fun _ => ⟨rfl, rfl, rfl, rfl, trivial⟩)
    (fun _ => by simp [body, padding, roundUp4]) (fun _ a _ _ => a.decode_wireValue)
    (fun _ _ _ h => length_of_decode h)

end EvenPortAttr

/-! ## MarkerAttrT -/

/-- `template<StunAttrType T> class MarkerAttrT`. -/
structure MarkerAttrT (T : StunAttrType) where
deriving DecidableEq

namespace MarkerAttrT

variable {T : StunAttrType}

def length (_ : MarkerAttrT T) : UInt16 := 0

def decode (buffer : Bytes) : Option (MarkerAttrT T) := if buffer.isEmpty then some {} else none

def encode (_ : MarkerAttrT T) (size : Nat) : Bool × List Store :=
  if size < attrHeaderSize then (false, []) else (true, [memcpy 0 (writeHeader T.code 0)])

instance : StunAttribute (MarkerAttrT T) where
  type := T
  length a := a.length.toNat
  encode := encode
  decode _ := decode

instance : AttributeSpec (MarkerAttrT T) :=
  .ofContiguous (fun _ => []) (fun _ => 0) (fun _ => []) (fun _ _ => True) (fun _ _ => rfl)
    (fun _ => rfl) (fun _ => rfl) (fun _ => trivial) (fun _ => rfl) (fun _ _ _ _ => rfl)
    (fun _ _ _ _ => Nat.zero_le _)

end MarkerAttrT

abbrev UseCandidateAttr := MarkerAttrT .useCandidate
abbrev DontFragmentAttr := MarkerAttrT .dontFragment

/-! ## Opaque arrays -/

structure ReservationTokenAttr where
  value : ByteArrayN 8
deriving DecidableEq

namespace ReservationTokenAttr

def valueSize : Nat := 8

def length (_ : ReservationTokenAttr) : UInt16 := UInt16.ofNat valueSize

def decode (buffer : Bytes) : Option ReservationTokenAttr :=
  if h : buffer.length = valueSize then some ⟨⟨buffer, h⟩⟩ else none

def body (a : ReservationTokenAttr) : List Store := [memcpy attrHeaderSize a.value.val]

def encode (a : ReservationTokenAttr) (size : Nat) : Bool × List Store :=
  if size < attrHeaderSize + valueSize then (false, [])
  else
    (true, memcpy 0 (writeHeader StunAttrType.reservationToken.code (UInt16.ofNat valueSize)) ::
      a.body)

instance : StunAttribute ReservationTokenAttr where
  type := .reservationToken
  length a := a.length.toNat
  encode := encode
  decode _ := decode

theorem length_of_decode {bs : Bytes} {a : ReservationTokenAttr} (h : decode bs = some a) :
    a.value.val.length ≤ bs.length := by
  unfold decode at h
  split at h
  · cases h
    exact Nat.le_refl _
  · cases h

end ReservationTokenAttr

structure UserHashAttr where
  hash : ByteArrayN 32 := ByteArrayN.zero 32
deriving DecidableEq

namespace UserHashAttr

def hashSize : UInt16 := 32

def length (_ : UserHashAttr) : UInt16 := hashSize

def decode (buffer : Bytes) : Option UserHashAttr :=
  if h : buffer.length = hashSize.toNat then some ⟨⟨buffer, h⟩⟩ else none

def body (a : UserHashAttr) : List Store := [memcpy attrHeaderSize a.hash.val]

def encode (a : UserHashAttr) (size : Nat) : Bool × List Store :=
  if size < attrHeaderSize + hashSize.toNat then (false, [])
  else (true, memcpy 0 (writeHeader StunAttrType.userHash.code a.length) :: a.body)

instance : StunAttribute UserHashAttr where
  type := .userHash
  length a := a.length.toNat
  encode := encode
  decode _ := decode

theorem length_of_decode {bs : Bytes} {a : UserHashAttr} (h : decode bs = some a) :
    a.hash.val.length ≤ bs.length := by
  unfold decode at h
  split at h
  · cases h
    exact Nat.le_refl _
  · cases h

end UserHashAttr

instance : AttributeSpec ReservationTokenAttr :=
  .ofContiguous ReservationTokenAttr.body (fun _ => ReservationTokenAttr.valueSize)
    (fun a => a.value.val) (fun _ _ => True) (fun _ _ => rfl) (fun a => a.value.property.symm)
    (fun a => by rw [a.value.property]; rfl)
    (fun _ => ⟨rfl, trivial⟩) (fun a => items_memcpy (by rw [a.value.property]; rfl))
    (fun _ a _ _ => dif_pos a.value.property)
    (fun _ _ _ h => ReservationTokenAttr.length_of_decode h)

instance : AttributeSpec UserHashAttr :=
  .ofContiguous UserHashAttr.body (fun _ => UserHashAttr.hashSize.toNat)
    (fun a => a.hash.val) (fun _ _ => True) (fun _ _ => rfl) (fun a => a.hash.property.symm)
    (fun a => by rw [a.hash.property]; rfl)
    (fun _ => ⟨rfl, trivial⟩) (fun a => items_memcpy (by rw [a.hash.property]; rfl))
    (fun _ a _ _ => dif_pos a.hash.property) (fun _ _ _ h => UserHashAttr.length_of_decode h)

/-! ## ChannelNumberAttr -/

structure ChannelNumberAttr where
  channelNumber : UInt16 := 0
deriving DecidableEq

namespace ChannelNumberAttr

def valueSize : Nat := 4

def length (_ : ChannelNumberAttr) : UInt16 := UInt16.ofNat valueSize

def decode : Bytes → Option ChannelNumberAttr
  | [b0, b1, b2, b3] =>
    let channel := readBe16 b0 b1
    if channel < 0x4000 ∨ 0x7FFF < channel then none
    else
      -- RFFU
      if readBe16 b2 b3 ≠ 0 then none else some ⟨channel⟩
  | _ => none

def body (a : ChannelNumberAttr) : List Store :=
  [memcpy attrHeaderSize (writeBe16 a.channelNumber), memcpy (attrHeaderSize + 2) [0],
    memcpy (attrHeaderSize + 3) [0]]

def encode (a : ChannelNumberAttr) (size : Nat) : Bool × List Store :=
  if size < attrHeaderSize + valueSize then (false, [])
  else
    (true, memcpy 0 (writeHeader StunAttrType.channelNumber.code (UInt16.ofNat valueSize)) ::
      a.body)

instance : StunAttribute ChannelNumberAttr where
  type := .channelNumber
  length a := a.length.toNat
  encode := encode
  decode _ := decode

theorem decode_writeBe16 {channel : UInt16} (hlo : 0x4000 ≤ channel) (hhi : channel ≤ 0x7FFF) :
    decode (writeBe16 channel ++ [0, 0]) = some ⟨channel⟩ := by
  have hread := readBe16_of_writeBe16 (v := channel) rfl
  have hrange : ¬(channel < 0x4000 ∨ 0x7FFF < channel) := by
    rw [not_or, UInt16.not_lt, UInt16.not_lt]
    exact ⟨hlo, hhi⟩
  simp only [decode, writeBe16, List.cons_append, List.nil_append, hread]
  rw [if_neg hrange, if_neg (by decide)]

theorem range_of_decode {bs : Bytes} {a : ChannelNumberAttr} (h : decode bs = some a) :
    0x4000 ≤ a.channelNumber ∧ a.channelNumber ≤ 0x7FFF := by
  unfold decode at h
  split at h
  · simp only [Option.ite_none_left_eq_some, Option.some.injEq] at h
    obtain ⟨hrange, -, rfl⟩ := h
    rw [not_or, UInt16.not_lt, UInt16.not_lt] at hrange
    exact hrange
  · cases h

theorem length_of_decode {bs : Bytes} {a : ChannelNumberAttr} (h : decode bs = some a) :
    bs.length = 4 := by
  unfold decode at h
  split at h
  · rfl
  · cases h

instance : AttributeSpec ChannelNumberAttr :=
  .ofContiguous body (fun _ => valueSize) (fun a => writeBe16 a.channelNumber ++ [0, 0])
    (fun _ a => 0x4000 ≤ a.channelNumber ∧ a.channelNumber ≤ 0x7FFF) (fun _ _ => rfl)
    (fun _ => rfl) (fun _ => by simp [roundUp4, valueSize]) (fun _ => ⟨rfl, rfl, rfl, trivial⟩)
    (fun _ => by simp [body, padding, roundUp4])
    (fun _ _ h _ => decode_writeBe16 h.1 h.2) (fun _ _ _ h => by simp [length_of_decode h])

end ChannelNumberAttr

/-! ## AddressFamilyAttrT -/

/-- `template<StunAttrType T> class AddressFamilyAttrT`. -/
structure AddressFamilyAttrT (T : StunAttrType) where
  family : AddressFamily := .ipv4
deriving DecidableEq

namespace AddressFamilyAttrT

variable {T : StunAttrType}

def valueSize : Nat := 4

def length (_ : AddressFamilyAttrT T) : UInt16 := UInt16.ofNat valueSize

def decode : Bytes → Option (AddressFamilyAttrT T)
  | [b0, b1, b2, b3] =>
    -- reserved bytes must be zero
    if b1 ≠ 0 ∨ b2 ≠ 0 ∨ b3 ≠ 0 then none else some ⟨⟨b0⟩⟩
  | _ => none

def body (a : AddressFamilyAttrT T) : List Store :=
  [memcpy attrHeaderSize [a.family.code], memcpy (attrHeaderSize + 1) [0],
    memcpy (attrHeaderSize + 2) [0], memcpy (attrHeaderSize + 3) [0]]

def encode (a : AddressFamilyAttrT T) (size : Nat) : Bool × List Store :=
  if size < attrHeaderSize + valueSize then (false, [])
  else (true, memcpy 0 (writeHeader T.code (UInt16.ofNat valueSize)) :: a.body)

instance : StunAttribute (AddressFamilyAttrT T) where
  type := T
  length a := a.length.toNat
  encode := encode
  decode _ := decode

theorem length_of_decode {bs : Bytes} {a : AddressFamilyAttrT T} (h : decode bs = some a) :
    bs.length = 4 := by
  unfold decode at h
  split at h
  · rfl
  · cases h

instance : AttributeSpec (AddressFamilyAttrT T) :=
  .ofContiguous body (fun _ => valueSize) (fun a => [a.family.code, 0, 0, 0]) (fun _ _ => True)
    (fun _ _ => rfl) (fun _ => rfl) (fun _ => by simp [roundUp4, valueSize])
    (fun _ => ⟨rfl, rfl, rfl, rfl, trivial⟩)
    (fun _ => by simp [body, padding, roundUp4])
    (fun _ _ _ _ => rfl) (fun _ _ _ h => (length_of_decode h).ge)

end AddressFamilyAttrT

abbrev RequestedAddressFamilyAttr := AddressFamilyAttrT .requestedAddressFamily
abbrev AdditionalAddressFamilyAttr := AddressFamilyAttrT .additionalAddressFamily

/-! ## Integers copied as they lie in memory -/

/-- `template<StunAttrType T> class IceControlAttrT`. -/
structure IceControlAttrT (T : StunAttrType) where
  tiebreaker : UInt64 := 0
deriving DecidableEq

namespace IceControlAttrT

variable {T : StunAttrType} [Platform]

def valueSize : Nat := 8

def length (_ : IceControlAttrT T) : UInt16 := UInt16.ofNat valueSize

def decode (buffer : Bytes) : Option (IceControlAttrT T) :=
  if buffer.length ≠ valueSize then none
  else
    let net := UInt64.ofNat (load buffer)
    some ⟨be64ToHost net⟩

def body (a : IceControlAttrT T) : List Store :=
  let net := hostToBe64 a.tiebreaker
  [memcpy attrHeaderSize (image valueSize net.toNat)]

def encode (a : IceControlAttrT T) (size : Nat) : Bool × List Store :=
  if size < attrHeaderSize + valueSize then (false, [])
  else (true, memcpy 0 (writeHeader T.code (UInt16.ofNat valueSize)) :: a.body)

instance : StunAttribute (IceControlAttrT T) where
  type := T
  length a := a.length.toNat
  encode := encode
  decode _ := decode

/-- The bytes of a tie-breaker. -/
def wireValue (a : IceControlAttrT T) : Bytes := image valueSize (hostToBe64 a.tiebreaker).toNat

theorem length_wireValue (a : IceControlAttrT T) : a.wireValue.length = 8 := length_image _ _

theorem decode_wireValue (a : IceControlAttrT T) : decode a.wireValue = some a := by
  have hload : load a.wireValue = (hostToBe64 a.tiebreaker).toNat :=
    load_image (hostToBe64 a.tiebreaker).toNat_lt
  simp only [decode, length_wireValue, hload, UInt64.ofNat_toNat, be64ToHost_hostToBe64]
  rfl

theorem length_of_decode {bs : Bytes} {a : IceControlAttrT T} (h : decode bs = some a) :
    bs.length = 8 := by
  unfold decode at h
  split at h
  · cases h
  · next hlen => exact not_not.1 hlen

instance : AttributeSpec (IceControlAttrT T) :=
  .ofContiguous body (fun _ => valueSize) wireValue (fun _ _ => True) (fun _ _ => rfl)
    (fun a => a.length_wireValue.symm) (fun a => by rw [length_wireValue]; rfl)
    (fun _ => ⟨rfl, trivial⟩) (fun a => items_memcpy (by rw [length_image]; rfl))
    (fun _ a _ _ => a.decode_wireValue)
    (fun _ _ a h => by rw [length_wireValue, length_of_decode h])

end IceControlAttrT

abbrev IceControlledAttr := IceControlAttrT .iceControlled
abbrev IceControllingAttr := IceControlAttrT .iceControlling

structure FingerprintAttr where
  value : UInt32 := 0
deriving DecidableEq

namespace FingerprintAttr

variable [Platform]

def valueSize : Nat := 4

def length (_ : FingerprintAttr) : UInt16 := UInt16.ofNat valueSize

def compute (msg : Bytes) : FingerprintAttr :=
  let crc := crc32Update 0 msg
  ⟨crc ^^^ 0x5354554E⟩

def decode (buffer : Bytes) : Option FingerprintAttr :=
  if buffer.length ≠ valueSize then none
  else
    let netValue := UInt32.ofNat (load buffer)
    some ⟨be32ToHost netValue⟩

def body (a : FingerprintAttr) : List Store :=
  let netValue := hostToBe32 a.value
  [memcpy attrHeaderSize (image valueSize netValue.toNat)]

def encode (a : FingerprintAttr) (size : Nat) : Bool × List Store :=
  if size < attrHeaderSize + valueSize then (false, [])
  else
    (true, memcpy 0 (writeHeader StunAttrType.fingerprint.code (UInt16.ofNat valueSize)) :: a.body)

instance : StunAttribute FingerprintAttr where
  type := .fingerprint
  length a := a.length.toNat
  encode := encode
  decode _ := decode

/-- The bytes of a FINGERPRINT value. -/
def wireValue (a : FingerprintAttr) : Bytes := image valueSize (hostToBe32 a.value).toNat

theorem length_wireValue (a : FingerprintAttr) : a.wireValue.length = 4 := length_image _ _

theorem decode_wireValue (a : FingerprintAttr) : decode a.wireValue = some a := by
  have hload : load a.wireValue = (hostToBe32 a.value).toNat :=
    load_image (hostToBe32 a.value).toNat_lt
  simp only [decode, length_wireValue, hload, UInt32.ofNat_toNat, be32ToHost_hostToBe32]
  rfl

theorem length_of_decode {bs : Bytes} {a : FingerprintAttr} (h : decode bs = some a) :
    bs.length = 4 := by
  unfold decode at h
  split at h
  · cases h
  · next hlen => exact not_not.1 hlen

instance : AttributeSpec FingerprintAttr :=
  .ofContiguous body (fun _ => valueSize) wireValue (fun _ _ => True) (fun _ _ => rfl)
    (fun a => a.length_wireValue.symm) (fun a => by rw [length_wireValue]; rfl)
    (fun _ => ⟨rfl, trivial⟩) (fun a => items_memcpy (by rw [length_image]; rfl))
    (fun _ a _ _ => a.decode_wireValue)
    (fun _ _ a h => by rw [length_wireValue, length_of_decode h])

end FingerprintAttr

end Stunxx
