import Stunxx.Lib.Mask
import Stunxx.Span

/-!
# XOR address attributes

`XorAddressAttrT.hpp`. The port and the address are masked with the magic cookie and, past the
fourth address byte, with the transaction ID. The mask is its own inverse (`xorBytes_xorBytes`),
so the value decodes under the transaction ID it was built with.

An object can only be built from a `StunAddress`, so its address length goes with its family and
the bytes of the array past that length are zero; both are fields of the structure.
-/

namespace Stunxx

open Overlay

/-- The first bytes of a zeroed array overwritten by `bs`. -/
def ByteArrayN.copy (n : Nat) (bs : Bytes) : ByteArrayN n :=
  ⟨overlay (ByteArrayN.zero n).val 0 bs, by rw [length_overlay, (ByteArrayN.zero n).property]⟩

theorem ByteArrayN.copy_val {n : Nat} {bs : Bytes} (h : bs.length ≤ n) :
    (ByteArrayN.copy n bs).val = bs ++ List.replicate (n - bs.length) 0 := by
  have hcopy : (copy n bs).val = overlay (List.replicate n 0) 0 bs := rfl
  rw [hcopy, overlay_replicate 0 (by omega), List.replicate_zero, List.nil_append, Nat.zero_add]

theorem ByteArrayN.copy_of_length {n : Nat} {bs : Bytes} (h : bs.length = n) :
    (ByteArrayN.copy n bs).val = bs := by
  rw [copy_val h.le, h, Nat.sub_self, List.replicate_zero, List.append_nil]

theorem ByteArrayN.take_copy {n k : Nat} {bs : Bytes} (h : bs.length = k) (hk : k ≤ n) :
    (ByteArrayN.copy n bs).val.take k = bs := by
  rw [copy_val (by omega), List.take_left' h]

structure StunAddress where
  family : AddressFamily := ⟨0⟩
  port : UInt16 := 0
  bytes : ByteArrayN 16 := ByteArrayN.zero 16
deriving DecidableEq

namespace StunAddress

def ipv4 (port : UInt16) (addr : ByteArrayN 4) : StunAddress :=
  { family := .ipv4, port, bytes := ByteArrayN.copy 16 addr.val }

def ipv6 (port : UInt16) (addr : ByteArrayN 16) : StunAddress :=
  { family := .ipv6, port, bytes := ByteArrayN.copy 16 addr.val }

def length (a : StunAddress) : Nat := if a.family = .ipv4 then 4 else 16

theorem length_le (a : StunAddress) : a.length ≤ 16 := by
  unfold length
  split <;> omega

/-- The bytes in use: `first 4 bytes for IPv4`. -/
def addressBytes (a : StunAddress) : Bytes := a.bytes.val.take a.length

@[simp] theorem length_addressBytes (a : StunAddress) : a.addressBytes.length = a.length := by
  rw [addressBytes, List.length_take, a.bytes.property, Nat.min_eq_left a.length_le]

/-- The address bytes of an IPv4 address. -/
theorem take_ipv4 (port : UInt16) (addr : ByteArrayN 4) :
    (ipv4 port addr).bytes.val.take 4 = addr.val := ByteArrayN.take_copy addr.property (by omega)

/-- The address bytes of an IPv6 address. -/
theorem take_ipv6 (port : UInt16) (addr : ByteArrayN 16) :
    (ipv6 port addr).bytes.val.take 16 = addr.val :=
  ByteArrayN.take_copy addr.property (Nat.le_refl 16)

end StunAddress

/-! ## The mask -/

/-- `xor_byte` of the loops; they run to at most 16, so `i - 4` is an index of `tid`. -/
def xorByte (tid : TransactionId) (i : Nat) : UInt8 :=
  if i < 4 then ((magicCookie >>> (24 - 8 * UInt32.ofNat i)) &&& 0xFF).toUInt8
  else tid.val.getD (i - 4) 0

/-- The loop over the address bytes, from index `i` on. -/
def xorBytes (tid : TransactionId) (i : Nat) : Bytes → Bytes
  | [] => []
  | b :: bs => (b ^^^ xorByte tid i) :: xorBytes tid (i + 1) bs

/-- The loop masks its bytes with the stream `xorByte`. -/
theorem xorBytes_eq_mask (tid : TransactionId) (i : Nat) (bs : Bytes) :
    xorBytes tid i bs = Mask.mask (· ^^^ ·) (xorByte tid) i bs := by
  induction bs generalizing i with
  | nil => rfl
  | cons b bs ih => rw [xorBytes, ih, Mask.mask]

@[simp] theorem length_xorBytes (tid : TransactionId) (i : Nat) (bs : Bytes) :
    (xorBytes tid i bs).length = bs.length := by
  rw [xorBytes_eq_mask, Mask.length_mask]

theorem xor_injective (b : UInt8) : Function.Injective (b ^^^ ·) :=
  fun _ _ => (UInt8.xor_right_inj b).1

theorem xorBytes_xorBytes (tid : TransactionId) (i : Nat) (bs : Bytes) :
    xorBytes tid i (xorBytes tid i bs) = bs := by
  rw [xorBytes_eq_mask, xorBytes_eq_mask, Mask.mask_mask_eq_self_iff _ xor_injective 0]
  exact fun _ _ => UInt8.xor_self

/-- `static_cast<uint16_t>(MAGIC_COOKIE >> 16)`. -/
def portMask : UInt16 := (magicCookie >>> 16).toUInt16

theorem xor_portMask_twice (port : UInt16) : port ^^^ portMask ^^^ portMask = port := by
  rw [UInt16.xor_assoc, UInt16.xor_self, UInt16.xor_zero]

/-- One store a byte, from offset `off` on. -/
def byteStores (off : Nat) : Bytes → List Store
  | [] => []
  | b :: bs => memcpy off [b] :: byteStores (off + 1) bs

theorem byteStores_contiguous (off : Nat) (bs : Bytes) : Contiguous off (byteStores off bs) := by
  induction bs generalizing off with
  | nil => trivial
  | cons b bs ih => exact ⟨rfl, ih (off + 1)⟩

theorem byteStores_items (off : Nat) (bs : Bytes) :
    (byteStores off bs).flatMap Patch.items = bs := by
  induction bs generalizing off with
  | nil => rfl
  | cons b bs ih => rw [byteStores, List.flatMap_cons, ih, memcpy_items, List.singleton_append]

/-! ## XorAddressAttrT -/

/-- `template<StunAttrType T> class XorAddressAttrT`. -/
@[ext] structure XorAddressAttrT (T : StunAttrType) where
  address : ByteArrayN 16
  addrFamily : AddressFamily
  addrLength : Nat
  port : UInt16
  transactionId : TransactionId
  addrLength_eq : addrLength = if addrFamily = .ipv4 then 4 else 16
  unused_eq : address.val.drop addrLength = List.replicate (16 - addrLength) 0
deriving DecidableEq

namespace XorAddressAttrT

variable {T : StunAttrType}

/-- The constructor. -/
def ofAddress (tid : TransactionId) (addr : StunAddress) : XorAddressAttrT T where
  address := ByteArrayN.copy 16 (addr.bytes.val.take addr.length)
  addrFamily := addr.family
  addrLength := addr.length
  port := addr.port
  transactionId := tid
  addrLength_eq := rfl
  unused_eq := by
    have hlen : (addr.bytes.val.take addr.length).length = addr.length := addr.length_addressBytes
    rw [ByteArrayN.copy_val (by rw [hlen]; exact addr.length_le), hlen, List.drop_left' hlen]

def length (a : XorAddressAttrT T) : UInt16 := UInt16.ofNat (4 + a.addrLength)

def paddedLength (a : XorAddressAttrT T) : Nat := roundUp4 a.length.toNat

/-- `address()`. -/
def addressSpan (a : XorAddressAttrT T) : Bytes := a.address.val.take a.addrLength

def decode (tid : TransactionId) : Bytes → Option (XorAddressAttrT T)
  | _ :: b1 :: b2 :: b3 :: rest =>
    let family : AddressFamily := ⟨b1⟩
    let addrLen := if family = .ipv4 then 4 else 16
    if rest.length < addrLen then none
    else
      let port := readBe16 b2 b3 ^^^ portMask
      let decoded := ByteArrayN.copy 16 (xorBytes tid 0 (rest.take addrLen))
      let addr :=
        if family = .ipv4 then StunAddress.ipv4 port (ByteArrayN.copy 4 (decoded.val.take 4))
        else StunAddress.ipv6 port decoded
      some (ofAddress tid addr)
  | _ => none

/-- The masked address bytes. -/
def xAddress (a : XorAddressAttrT T) : Bytes :=
  xorBytes a.transactionId 0 (a.address.val.take a.addrLength)

def body (a : XorAddressAttrT T) : List Store :=
  memcpy attrHeaderSize [0] :: memcpy (attrHeaderSize + 1) [a.addrFamily.code] ::
    memcpy (attrHeaderSize + 2) (writeBe16 (a.port ^^^ portMask)) ::
    byteStores (attrHeaderSize + 4) a.xAddress

def encode (a : XorAddressAttrT T) (size : Nat) : Bool × List Store :=
  if size < attrHeaderSize + a.length.toNat then (false, [])
  else (true, memcpy 0 (writeHeader T.code a.length) :: a.body)

instance : StunAttribute (XorAddressAttrT T) where
  type := T
  length a := a.length.toNat
  encode := encode
  decode := decode

/-- The bytes of an XOR address value. -/
def wireValue (a : XorAddressAttrT T) : Bytes :=
  0 :: a.addrFamily.code :: (writeBe16 (a.port ^^^ portMask) ++ a.xAddress)

theorem addrLength_cases (a : XorAddressAttrT T) : a.addrLength = 4 ∨ a.addrLength = 16 := by
  rw [a.addrLength_eq]
  split
  · exact .inl rfl
  · exact .inr rfl

theorem length_take_address (a : XorAddressAttrT T) :
    (a.address.val.take a.addrLength).length = a.addrLength := by
  have hcases := a.addrLength_cases
  rw [List.length_take, a.address.property]
  omega

theorem length_wireValue (a : XorAddressAttrT T) : a.wireValue.length = 4 + a.addrLength := by
  simp only [wireValue, xAddress, List.length_cons, List.length_append, length_writeBe16,
    length_xorBytes, length_take_address]
  omega

theorem toNat_length (a : XorAddressAttrT T) : a.length.toNat = 4 + a.addrLength := by
  have hcases := a.addrLength_cases
  rw [length, UInt16.toNat_ofNat', Nat.mod_eq_of_lt (by omega)]

theorem roundUp4_length (a : XorAddressAttrT T) : roundUp4 a.length.toNat = a.length.toNat := by
  rw [toNat_length]
  rcases a.addrLength_cases with h | h <;> rw [h] <;> rfl

theorem roundUp4_wireValue (a : XorAddressAttrT T) :
    roundUp4 a.wireValue.length = a.wireValue.length := by
  have hlen := a.roundUp4_length
  rwa [toNat_length, ← length_wireValue] at hlen

theorem contiguous (a : XorAddressAttrT T) : Contiguous attrHeaderSize a.body :=
  ⟨rfl, rfl, rfl, byteStores_contiguous _ _⟩

theorem items_body (a : XorAddressAttrT T) :
    a.body.flatMap Patch.items = a.wireValue ++ padding a.wireValue.length := by
  rw [padding, roundUp4_wireValue, Nat.sub_self, List.replicate_zero, List.append_nil]
  simp only [body, List.flatMap_cons, memcpy_items, byteStores_items, wireValue,
    List.singleton_append]

/-! ## What is read -/

section Read

variable {tid : TransactionId} {addr : StunAddress}

/-- `address()` of an object is the address it was built from. -/
theorem addressSpan_ofAddress :
    (ofAddress tid addr : XorAddressAttrT T).addressSpan = addr.addressBytes :=
  ByteArrayN.take_copy addr.length_addressBytes addr.length_le

/-- An object is determined by its public fields. -/
theorem ofAddress_eq {a : XorAddressAttrT T} (hfam : addr.family = a.addrFamily)
    (hport : addr.port = a.port) (hbytes : addr.addressBytes = a.addressSpan) :
    ofAddress a.transactionId addr = a := by
  have hlen : addr.length = a.addrLength := by rw [a.addrLength_eq, ← hfam, StunAddress.length]
  have hcases := a.addrLength_cases
  ext1
  · apply Subtype.ext
    show (ByteArrayN.copy 16 addr.addressBytes).val = _
    rw [hbytes, addressSpan, ByteArrayN.copy_val (by rw [length_take_address]; omega),
      length_take_address, ← a.unused_eq, List.take_append_drop]
  · exact hfam
  · exact hlen
  · exact hport
  · rfl

/-- `addr` is what `decode` unmasks from the bytes behind the reserved one. -/
structure Unmasks (tid : TransactionId) (b1 b2 b3 : UInt8) (rest : Bytes) (addr : StunAddress) :
    Prop where
  family : addr.family = if (⟨b1⟩ : AddressFamily) = .ipv4 then .ipv4 else .ipv6
  port : addr.port = readBe16 b2 b3 ^^^ portMask
  room : addr.length ≤ rest.length
  bytes : addr.addressBytes = xorBytes tid 0 (rest.take addr.length)

theorem Unmasks.length {b1 b2 b3 : UInt8} {rest : Bytes} (h : Unmasks tid b1 b2 b3 rest addr) :
    addr.length = if (⟨b1⟩ : AddressFamily) = .ipv4 then 4 else 16 := by
  rw [StunAddress.length, h.family]
  by_cases h4 : (⟨b1⟩ : AddressFamily) = .ipv4
  · rw [if_pos h4, if_pos rfl, if_pos h4]
  · rw [if_neg h4, if_neg (by decide), if_neg h4]

/-- Where there is room for an address, one is read. -/
theorem decode_cons (b0 : UInt8) {b1 b2 b3 : UInt8} {rest : Bytes}
    (hroom : (if (⟨b1⟩ : AddressFamily) = .ipv4 then 4 else 16) ≤ rest.length) :
    ∃ addr, Unmasks tid b1 b2 b3 rest addr ∧
      decode tid (b0 :: b1 :: b2 :: b3 :: rest) =
        some (ofAddress tid addr : XorAddressAttrT T) := by
  have hx : ∀ n ≤ rest.length, (xorBytes tid 0 (rest.take n)).length = n := by
    intro n hn
    rw [length_xorBytes, List.length_take, Nat.min_eq_left hn]
  have hread := Nat.not_lt.2 hroom
  by_cases h4 : (⟨b1⟩ : AddressFamily) = .ipv4
  · simp only [h4, if_true] at hroom hread
    refine ⟨.ipv4 (readBe16 b2 b3 ^^^ portMask) ⟨_, hx 4 hroom⟩,
      ⟨(if_pos h4).symm, rfl, hroom, StunAddress.take_ipv4 _ _⟩, ?_⟩
    have hcopy : ByteArrayN.copy 4
        ((ByteArrayN.copy 16 (xorBytes tid 0 (rest.take 4))).val.take 4) = ⟨_, hx 4 hroom⟩ := by
      apply Subtype.ext
      rw [ByteArrayN.take_copy (hx 4 hroom) (by omega), ByteArrayN.copy_of_length (hx 4 hroom)]
    simp only [decode, h4, if_true, hread, if_false, hcopy]
  · simp only [h4, if_false] at hroom hread
    refine ⟨.ipv6 (readBe16 b2 b3 ^^^ portMask) ⟨_, hx 16 hroom⟩,
      ⟨(if_neg h4).symm, rfl, hroom, StunAddress.take_ipv6 _ _⟩, ?_⟩
    have hcopy : ByteArrayN.copy 16 (xorBytes tid 0 (rest.take 16)) = ⟨_, hx 16 hroom⟩ :=
      Subtype.ext (ByteArrayN.copy_of_length (hx 16 hroom))
    simp only [decode, h4, if_false, hread, hcopy]

/-- **What `decode` reads**: the address it unmasks. -/
theorem decode_eq_some_iff {bs : Bytes} {a : XorAddressAttrT T} :
    decode tid bs = some a ↔ ∃ b0 b1 b2 b3 rest addr, bs = b0 :: b1 :: b2 :: b3 :: rest ∧
      Unmasks tid b1 b2 b3 rest addr ∧ a = ofAddress tid addr := by
  constructor
  · intro h
    unfold decode at h
    split at h
    · next b0 b1 b2 b3 rest =>
      have hroom := Nat.not_lt.1 (Option.ite_none_left_eq_some.1 h).1
      obtain ⟨addr, haddr, hread⟩ := @decode_cons T tid b0 _ _ _ _ hroom
      exact ⟨b0, b1, b2, b3, rest, addr, rfl, haddr, Option.some.inj (h.symm.trans hread)⟩
    · cases h
  · rintro ⟨b0, b1, b2, b3, rest, addr, rfl, haddr, rfl⟩
    have hroom := haddr.room
    rw [haddr.length] at hroom
    obtain ⟨addr', haddr', hread⟩ := @decode_cons T tid b0 _ _ _ _ hroom
    rw [hread]
    have hlen : addr'.length = addr.length := haddr'.length.trans haddr.length.symm
    have hbytes : addr'.addressBytes = addr.addressBytes := by
      rw [haddr'.bytes, haddr.bytes, hlen]
    exact congrArg some (ofAddress_eq (haddr'.family.trans haddr.family.symm)
      (haddr'.port.trans haddr.port.symm) (hbytes.trans addressSpan_ofAddress.symm))

end Read

theorem decode_wireValue {a : XorAddressAttrT T}
    (hfam : a.addrFamily = .ipv4 ∨ a.addrFamily = .ipv6) :
    decode a.transactionId a.wireValue = some a := by
  let addr : StunAddress := ⟨a.addrFamily, a.port, a.address⟩
  have hlen : addr.length = a.addrLength := a.addrLength_eq.symm
  have hspan : addr.addressBytes = a.addressSpan := by
    rw [StunAddress.addressBytes, hlen, addressSpan]
  have hx : a.xAddress.length = addr.length := by
    rw [xAddress, length_xorBytes, length_take_address, hlen]
  rw [decode_eq_some_iff]
  refine ⟨0, a.addrFamily.code, _, _, a.xAddress, addr, rfl, ⟨?_, ?_, hx.ge, ?_⟩,
    (ofAddress_eq rfl rfl hspan).symm⟩
  · rcases hfam with h4 | h6
    · exact h4.trans (if_pos h4).symm
    · exact h6.trans (if_neg (by rw [h6]; decide)).symm
  · rw [readBe16_of_writeBe16 rfl, xor_portMask_twice]
  · rw [List.take_of_length_le hx.le, xAddress, xorBytes_xorBytes]
    exact hspan

/-- A decoded address was masked with the transaction ID given, and its family is one of the two. -/
theorem limits_of_decode {tid : TransactionId} {bs : Bytes} {a : XorAddressAttrT T}
    (h : decode tid bs = some a) :
    a.transactionId = tid ∧ (a.addrFamily = .ipv4 ∨ a.addrFamily = .ipv6) := by
  obtain ⟨b0, b1, b2, b3, rest, addr, rfl, haddr, rfl⟩ := decode_eq_some_iff.1 h
  refine ⟨rfl, ?_⟩
  show addr.family = .ipv4 ∨ addr.family = .ipv6
  rw [haddr.family]
  split
  · exact .inl rfl
  · exact .inr rfl

theorem length_of_decode {tid : TransactionId} {bs : Bytes} {a : XorAddressAttrT T}
    (h : decode tid bs = some a) : 4 + a.addrLength ≤ bs.length := by
  obtain ⟨b0, b1, b2, b3, rest, addr, rfl, haddr, rfl⟩ := decode_eq_some_iff.1 h
  have hroom := haddr.room
  show 4 + addr.length ≤ rest.length + 4
  omega

theorem length_eq (a : XorAddressAttrT T) : StunAttribute.length a = a.wireValue.length :=
  a.toNat_length.trans a.length_wireValue.symm

instance : AttributeSpec (XorAddressAttrT T) :=
  .ofContiguous body (fun a => a.length.toNat) wireValue
    (fun tid a => a.transactionId = tid ∧ (a.addrFamily = .ipv4 ∨ a.addrFamily = .ipv6))
    (fun a size => by
      show a.encode size = _
      simp only [encode, StunAttribute.length, StunAttribute.type, UInt16.ofNat_toNat])
    length_eq (fun a => a.length_eq.trans a.roundUp4_wireValue.symm) contiguous items_body
    (fun tid a h _ => by
      obtain ⟨rfl, hfam⟩ := h
      exact decode_wireValue hfam)
    (fun _ _ a h => a.length_wireValue.trans_le (length_of_decode h))

end XorAddressAttrT

abbrev XorMappedAddrAttr := XorAddressAttrT .xorMappedAddress
abbrev XorPeerAddrAttr := XorAddressAttrT .xorPeerAddress
abbrev XorRelayedAddrAttr := XorAddressAttrT .xorRelayedAddress
abbrev AlternateServerAttr := XorAddressAttrT .alternateServer

end Stunxx
