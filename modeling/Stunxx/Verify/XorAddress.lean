import Stunxx.Verify.EncoderStep

/-!
# Reading an XOR address

`decode` takes the family byte 0x01 for IPv4 and every other one for IPv6, and it only checks that
the value is long enough. The masks cancel (`Unmasks.wireValue_eq`), so what it reads is encoded to
the same bytes, up to the first one, if the value has the size of its family; a longer value and a
family byte that names no family are not rejected.
-/

namespace Stunxx

open Overlay

namespace XorAddressAttrT

variable {T : StunAttrType} {tid : TransactionId}

theorem xAddress_ofAddress (addr : StunAddress) :
    (ofAddress tid addr : XorAddressAttrT T).xAddress = xorBytes tid 0 addr.addressBytes :=
  congrArg (xorBytes tid 0) addressSpan_ofAddress

/-- What an address unmasked is encoded to. -/
theorem Unmasks.wireValue_eq {b1 b2 b3 : UInt8} {rest : Bytes} {addr : StunAddress}
    (h : Unmasks tid b1 b2 b3 rest addr) :
    (ofAddress tid addr : XorAddressAttrT T).wireValue =
      0 :: addr.family.code :: b2 :: b3 :: rest.take addr.length := by
  have hunmask : addr.port ^^^ portMask = readBe16 b2 b3 := by
    rw [h.port, xor_portMask_twice]
  have hmask : (ofAddress tid addr : XorAddressAttrT T).xAddress = rest.take addr.length := by
    rw [xAddress_ofAddress, h.bytes, xorBytes_xorBytes]
  show 0 :: addr.family.code :: (writeBe16 (addr.port ^^^ portMask) ++
    (ofAddress tid addr : XorAddressAttrT T).xAddress) = _
  rw [hunmask, hmask, writeBe16_readBe16]
  rfl

/-- The family byte of a value. -/
theorem family_iff (b0 b1 : UInt8) (rest : Bytes) :
    (b0 :: b1 :: rest)[1]? = some 1 ↔ (⟨b1⟩ : AddressFamily) = .ipv4 := by
  simp [AddressFamily.ipv4]

/-- What was read keeps the family, as far as it is one, the port and the address bytes. -/
theorem of_decode {bs : Bytes} {a : XorAddressAttrT T} (h : decode tid bs = some a) :
    a.addrFamily = (if bs[1]? = some 1 then .ipv4 else .ipv6) ∧
      a.addrLength = (if bs[1]? = some 1 then 4 else 16) ∧ 4 + a.addrLength ≤ bs.length ∧
      a.wireValue = 0 :: a.addrFamily.code :: (bs.drop 2).take (2 + a.addrLength) := by
  have hlen := length_of_decode h
  obtain ⟨b0, b1, b2, b3, rest, addr, rfl, haddr, rfl⟩ := decode_eq_some_iff.1 h
  simp only [family_iff]
  refine ⟨haddr.family, haddr.length, hlen, haddr.wireValue_eq.trans ?_⟩
  show _ = 0 :: addr.family.code :: (b2 :: b3 :: rest).take (2 + addr.length)
  rw [Nat.add_comm]
  rfl

/-- Any value with a whole address is read. -/
theorem exists_decode {bs : Bytes}
    (h : 4 + (if bs[1]? = some 1 then 4 else 16) ≤ bs.length) :
    ∃ a : XorAddressAttrT T, decode tid bs = some a := by
  obtain ⟨b0, b1, b2, b3, rest, rfl⟩ := exists_four (Nat.le_trans (Nat.le_add_right 4 _) h)
  simp only [family_iff, List.length_cons] at h
  have hroom : (if (⟨b1⟩ : AddressFamily) = .ipv4 then 4 else 16) ≤ rest.length := by omega
  obtain ⟨addr, -, hread⟩ := decode_cons b0 hroom
  exact ⟨_, hread⟩

/-- An object is encoded into a span with room for it; its value is not padded. -/
theorem writes (a : XorAddressAttrT T) {xs : Bytes}
    (hroom : attrHeaderSize + (4 + a.addrLength) ≤ xs.length) :
    (StunAttribute.encode a xs.length).1 = true ∧
      StunAttribute.writtenValue a xs = a.wireValue := by
  have hcases := a.addrLength_cases
  have hsize : AttributeSpec.valueSize a = 4 + a.addrLength := a.length_wireValue
  have hround := a.roundUp4_wireValue
  rw [length_wireValue] at hround
  apply Encoder.writes_of_room rfl (by omega)
  rwa [hsize, hround]

/-! ## Faithful decoding -/

/-- A value of one of the two families, of its size. -/
def WellFormed (bs : Bytes) : Prop :=
  (bs[1]? = some 1 ∧ bs.length = 8) ∨ (bs[1]? = some 2 ∧ bs.length = 20)

/-- The value is well formed if it is read, and then it is encoded to the same bytes, but for the
reserved one at its front. -/
structure Faithful (T : StunAttrType) (tid : TransactionId) (bs : Bytes) : Prop where
  wellFormed : ∀ a : XorAddressAttrT T, decode tid bs = some a → WellFormed bs
  reproduced : ∀ a : XorAddressAttrT T, decode tid bs = some a →
    ∀ xs : Bytes, attrHeaderSize + bs.length ≤ xs.length →
      (a.encode xs.length).1 = true ∧ StunAttribute.writtenValue a xs = 0 :: bs.tail

/-- The longest value of a family byte that is not misread. -/
def longest (family : UInt8) : Nat := if family = 1 then 8 else if family = 2 then 20 else 19

/-- A value that is read and not too long is well formed. -/
theorem wellFormed_of_decode {bs : Bytes} {a : XorAddressAttrT T} (h : decode tid bs = some a)
    (hfits : ∀ family, bs[1]? = some family → bs.length ≤ longest family) : WellFormed bs := by
  obtain ⟨-, hsize, hlen, -⟩ := of_decode h
  obtain ⟨b0, b1, b2, b3, rest, rfl⟩ := exists_four (Nat.le_trans (Nat.le_add_right 4 _) hlen)
  have hlongest := hfits b1 rfl
  unfold longest at hlongest
  by_cases h1 : b1 = 1
  · rw [if_pos (by simp [h1])] at hsize
    rw [if_pos h1] at hlongest
    exact .inl ⟨by simp [h1], by omega⟩
  · rw [if_neg (by simp [h1])] at hsize
    rw [if_neg h1] at hlongest
    split at hlongest
    · next h2 => exact .inr ⟨by simp [h2], by omega⟩
    · omega

/-- What is read of a well-formed value has its bytes on the wire. -/
theorem wireValue_of_wellFormed {bs : Bytes} {a : XorAddressAttrT T} (h : decode tid bs = some a)
    (hwell : WellFormed bs) : 4 + a.addrLength = bs.length ∧ a.wireValue = 0 :: bs.tail := by
  obtain ⟨hfam, hsize, hlen, hwire⟩ := of_decode h
  obtain ⟨b0, b1, b2, b3, rest, rfl⟩ := exists_four (Nat.le_trans (Nat.le_add_right 4 _) hlen)
  have hfull : 4 + a.addrLength = (b0 :: b1 :: b2 :: b3 :: rest).length ∧
      a.addrFamily.code = b1 := by
    rcases hwell with ⟨h1, hlen⟩ | ⟨h2, hlen⟩
    · obtain rfl : b1 = 1 := Option.some.inj h1
      rw [if_pos h1] at hfam hsize
      exact ⟨by omega, by rw [hfam]; rfl⟩
    · obtain rfl : b1 = 2 := Option.some.inj h2
      rw [if_neg (by simp)] at hfam hsize
      exact ⟨by omega, by rw [hfam]; rfl⟩
  refine ⟨hfull.1, ?_⟩
  rw [hwire, hfull.2]
  show 0 :: b1 :: (b2 :: b3 :: rest).take (2 + a.addrLength) = 0 :: b1 :: b2 :: b3 :: rest
  rw [List.take_of_length_le]
  simp only [List.length_cons] at hfull ⊢
  omega

/-- **When an XOR address is read faithfully**: a value that names IPv4 is at most 8 bytes long, one
that names IPv6 at most 20, and one that names no family less than 20. -/
theorem faithful_iff (bs : Bytes) :
    Faithful T tid bs ↔ ∀ family, bs[1]? = some family → bs.length ≤ longest family := by
  constructor
  · intro h family hfamily
    by_contra hlong
    rw [Nat.not_le] at hlong
    have hread : 4 + (if bs[1]? = some 1 then 4 else 16) ≤ bs.length := by
      rw [hfamily]
      unfold longest at hlong
      by_cases h1 : family = 1
      · rw [if_pos h1] at hlong
        rw [if_pos (by rw [h1])]
        omega
      · rw [if_neg h1] at hlong
        rw [if_neg (by simpa using h1)]
        split at hlong <;> omega
    obtain ⟨a, ha⟩ := @exists_decode T tid bs hread
    rcases h.wellFormed a ha with ⟨h1, hlen⟩ | ⟨h2, hlen⟩
    · obtain rfl : family = 1 := Option.some.inj (hfamily.symm.trans h1)
      have hlongest : longest 1 = 8 := rfl
      omega
    · obtain rfl : family = 2 := Option.some.inj (hfamily.symm.trans h2)
      have hlongest : longest 2 = 20 := rfl
      omega
  · intro hfits
    refine ⟨fun a ha => wellFormed_of_decode ha hfits, ?_⟩
    intro a ha xs hxs
    obtain ⟨hlen, hwire⟩ := wireValue_of_wellFormed ha (wellFormed_of_decode ha hfits)
    obtain ⟨hok, hwritten⟩ := a.writes (hlen ▸ hxs)
    exact ⟨hok, hwritten.trans hwire⟩

/-- A value of family 3 is read as an IPv6 address, and an IPv4 address with a byte behind it is
read as well. -/
theorem unknown_family_read :
    (∃ a : XorMappedAddrAttr,
      decode (ByteArrayN.zero 12) (0 :: 3 :: List.replicate 18 0) = some a ∧
        a.wireValue = 0 :: 2 :: List.replicate 18 0) ∧
    (∃ a : XorMappedAddrAttr,
      decode (ByteArrayN.zero 12) (0 :: 1 :: List.replicate 7 0) = some a) ∧
    ¬Faithful .xorMappedAddress (ByteArrayN.zero 12) (0 :: 3 :: List.replicate 18 0) ∧
    ¬Faithful .xorMappedAddress (ByteArrayN.zero 12) (0 :: 1 :: List.replicate 7 0) := by
  have hunknown : ∃ a : XorMappedAddrAttr,
      decode (ByteArrayN.zero 12) (0 :: 3 :: List.replicate 18 0) = some a :=
    exists_decode (by decide)
  have hlong : ∃ a : XorMappedAddrAttr,
      decode (ByteArrayN.zero 12) (0 :: 1 :: List.replicate 7 0) = some a :=
    exists_decode (by decide)
  refine ⟨?_, hlong, ?_, ?_⟩
  · obtain ⟨a, ha⟩ := hunknown
    obtain ⟨hfam, hsize, -, hwire⟩ := of_decode ha
    rw [hfam, hsize] at hwire
    exact ⟨a, ha, hwire⟩
  · intro h
    obtain ⟨a, ha⟩ := hunknown
    rcases h.wellFormed a ha with ⟨h1, -⟩ | ⟨h2, -⟩
    · cases h1
    · cases h2
  · intro h
    obtain ⟨a, ha⟩ := hlong
    rcases h.wellFormed a ha with ⟨-, hlen⟩ | ⟨-, hlen⟩ <;> cases hlen

end XorAddressAttrT

end Stunxx
