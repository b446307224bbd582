import Stunxx.Verify.XorAddress

/-!
# Addresses under two transaction IDs

An address that one transaction ID masks and another unmasks has been masked with both streams
(`Mask.mask_mask`). All streams begin with the four bytes of the magic cookie, which is the whole of
an IPv4 address, and go on with the transaction ID, so for IPv6 two of them agree only if the IDs do
(`xorByte_agree_iff`). The cookie itself is in every mask: ALTERNATE-SERVER, which uses the same
class for an address that is to stay as it is, never writes or reads one that way.
-/

namespace Stunxx

/-! ## The streams of two transaction IDs -/

section Streams

variable {t₁ t₂ : TransactionId}

theorem xorByte_of_lt (t₁ t₂ : TransactionId) {i : Nat} (h : i < 4) :
    xorByte t₁ i = xorByte t₂ i := by
  rw [xorByte, xorByte, if_pos h, if_pos h]

theorem xorByte_tail (tid : TransactionId) (i : Nat) : xorByte tid (4 + i) = tid.val.getD i 0 := by
  rw [xorByte, if_neg (by omega), Nat.add_sub_cancel_left]

/-- Every stream begins with the first byte of the cookie. -/
theorem xorByte_zero (tid : TransactionId) : xorByte tid 0 = 0x21 := rfl

theorem transactionId_eq_of_bytes (h : ∀ i < 12, t₁.val.getD i 0 = t₂.val.getD i 0) : t₁ = t₂ := by
  apply Subtype.ext
  apply List.ext_getElem (t₁.property.trans t₂.property.symm)
  intro i hi₁ hi₂
  have hbyte := h i (hi₁.trans_eq t₁.property)
  rwa [List.getD_eq_getElem _ _ hi₁, List.getD_eq_getElem _ _ hi₂] at hbyte

/-- Two streams agree over an IPv4 address, over any other exactly if the IDs are the same. -/
theorem xorByte_agree_iff (addr : StunAddress) :
    (∀ n < addr.addressBytes.length, xorByte t₁ (0 + n) = xorByte t₂ (0 + n)) ↔
      addr.family = .ipv4 ∨ t₁ = t₂ := by
  rw [StunAddress.length_addressBytes, StunAddress.length]
  simp only [Nat.zero_add]
  constructor
  · intro h
    by_cases h4 : addr.family = .ipv4
    · exact .inl h4
    · rw [if_neg h4] at h
      refine .inr (transactionId_eq_of_bytes fun i hi => ?_)
      have hbyte := h (4 + i) (by omega)
      rwa [xorByte_tail, xorByte_tail] at hbyte
  · rintro (h4 | rfl) n hn
    · rw [if_pos h4] at hn
      exact xorByte_of_lt t₁ t₂ hn
    · rfl

end Streams

/-! ## What is written and read -/

namespace XorAddressAttrT

variable {T : StunAttrType} {tid : TransactionId}

/-- The value an address is written in. -/
theorem wireValue_mask (addr : StunAddress) :
    (ofAddress tid addr : XorAddressAttrT T).wireValue =
      0 :: addr.family.code ::
        (writeBe16 (addr.port ^^^ portMask) ++ xorBytes tid 0 addr.addressBytes) := by
  rw [← @xAddress_ofAddress T]
  rfl

/-- What is read of a value with the size of its family. -/
theorem exists_decode_value {family : AddressFamily} (v : UInt16) {bs : Bytes}
    (hlen : bs.length = if family = .ipv4 then 4 else 16) :
    ∃ a : XorAddressAttrT T, decode tid (0 :: family.code :: (writeBe16 v ++ bs)) = some a ∧
      a.addrFamily = (if family = .ipv4 then .ipv4 else .ipv6) ∧ a.port = v ^^^ portMask ∧
      a.addressSpan = xorBytes tid 0 bs := by
  obtain ⟨addr, haddr, hread⟩ := decode_cons 0 hlen.ge
  refine ⟨_, hread, haddr.family, ?_, ?_⟩
  · rw [← readBe16_of_writeBe16 (v := v) rfl]
    exact haddr.port
  · have hwhole : bs.length ≤ addr.length := (hlen.trans haddr.length.symm).le
    rw [addressSpan_ofAddress, haddr.bytes, List.take_of_length_le hwhole]

/-- An address written under one transaction ID and read under another. -/
theorem exists_decode_wireValue (t₁ t₂ : TransactionId) (addr : StunAddress) :
    ∃ b : XorAddressAttrT T,
      decode t₂ (ofAddress t₁ addr : XorAddressAttrT T).wireValue = some b ∧
      b.addrFamily = (if addr.family = .ipv4 then .ipv4 else .ipv6) ∧ b.port = addr.port ∧
      b.addressSpan = xorBytes t₂ 0 (xorBytes t₁ 0 addr.addressBytes) := by
  have hlen : (xorBytes t₁ 0 addr.addressBytes).length = if addr.family = .ipv4 then 4 else 16 :=
    (length_xorBytes _ _ _).trans addr.length_addressBytes
  obtain ⟨b, hb, hfamily, hport, haddress⟩ :=
    @exists_decode_value T t₂ addr.family (addr.port ^^^ portMask) _ hlen
  rw [xor_portMask_twice] at hport
  rw [wireValue_mask]
  exact ⟨b, hb, hfamily, hport, haddress⟩

end XorAddressAttrT

/-! ## The mask of an address -/

section TwoIds

variable (t₁ t₂ : TransactionId) (addr : StunAddress)

/-- Masked with both IDs, an address is recovered if it is IPv4 or the IDs are the same. -/
theorem xorBytes_recovers_iff :
    xorBytes t₂ 0 (xorBytes t₁ 0 addr.addressBytes) = addr.addressBytes ↔
      addr.family = .ipv4 ∨ t₁ = t₂ := by
  rw [xorBytes_eq_mask, xorBytes_eq_mask, Mask.mask_mask_eq_self_iff _ xor_injective 0,
    ← xorByte_agree_iff]
  exact forall₂_congr fun _ _ => UInt8.xor_eq_zero_iff

/-- Two IDs mask an address alike if it is IPv4 or they are the same. -/
theorem xorBytes_alike_iff :
    xorBytes t₁ 0 addr.addressBytes = xorBytes t₂ 0 addr.addressBytes ↔
      addr.family = .ipv4 ∨ t₁ = t₂ := by
  rw [xorBytes_eq_mask, xorBytes_eq_mask, Mask.mask_eq_mask_iff _ xor_injective,
    xorByte_agree_iff]

/-- No ID leaves an address as it is. -/
theorem xorBytes_ne_self (tid : TransactionId) :
    xorBytes tid 0 addr.addressBytes ≠ addr.addressBytes := by
  rw [xorBytes_eq_mask, Ne, Mask.mask_eq_self_iff _ xor_injective 0]
  intro hneutral
  have hpos : 0 < addr.addressBytes.length := by
    rw [StunAddress.length_addressBytes, StunAddress.length]
    split <;> omega
  exact absurd (hneutral 0 hpos) (by rw [xorByte_zero]; decide)

/-- One byte masked with both IDs. -/
theorem getElem?_xorBytes_xorBytes (bs : Bytes) (i : Nat) :
    (xorBytes t₂ 0 (xorBytes t₁ 0 bs))[i]? =
      bs[i]?.map fun b => b ^^^ (xorByte t₁ i ^^^ xorByte t₂ i) := by
  rw [xorBytes_eq_mask, xorBytes_eq_mask, Mask.mask_mask, Mask.getElem?_mask, Nat.zero_add]

end TwoIds

/-! ## Reading with another ID -/

/-- `b` is what is read of `addr` if it was masked with `t₁` and is unmasked with `t₂`: only the
last twelve bytes of an IPv6 address depend on the two. -/
structure ReadAcross {T : StunAttrType} (t₁ t₂ : TransactionId) (addr : StunAddress)
    (b : XorAddressAttrT T) : Prop where
  family : b.addrFamily = addr.family
  port : b.port = addr.port
  ipv4 : addr.family = .ipv4 → b.addressSpan = addr.addressBytes
  head : addr.family = .ipv6 → b.addressSpan.take 4 = addr.addressBytes.take 4
  tail : addr.family = .ipv6 → ∀ i < 12, b.addressSpan[4 + i]? =
    addr.addressBytes[4 + i]?.map fun x => x ^^^ (t₁.val.getD i 0 ^^^ t₂.val.getD i 0)
  recovered : addr.family = .ipv6 → (b.addressSpan = addr.addressBytes ↔ t₁ = t₂)

theorem readAcross_of_span {T : StunAttrType} {t₁ t₂ : TransactionId} {addr : StunAddress}
    {b : XorAddressAttrT T} (hfamily : b.addrFamily = addr.family) (hport : b.port = addr.port)
    (hspan : b.addressSpan = xorBytes t₂ 0 (xorBytes t₁ 0 addr.addressBytes)) :
    ReadAcross t₁ t₂ addr b where
  family := hfamily
  port := hport
  ipv4 h4 := hspan.trans ((xorBytes_recovers_iff t₁ t₂ addr).2 (.inl h4))
  head _ := by
    apply List.ext_getElem?
    intro i
    rw [List.getElem?_take, List.getElem?_take, hspan, getElem?_xorBytes_xorBytes]
    split
    · next hi =>
      rw [xorByte_of_lt t₁ t₂ hi]
      simp only [UInt8.xor_self, UInt8.xor_zero, Option.map_id']
    · rfl
  tail _ i _ := by rw [hspan, getElem?_xorBytes_xorBytes, xorByte_tail, xorByte_tail]
  recovered h6 := by
    rw [hspan, xorBytes_recovers_iff, h6]
    exact or_iff_right (by decide)

/-- **The transaction ID masks exactly the tail of an IPv6 address**: what one ID wrote another one
reads, and it is the same port and address but for that tail. -/
theorem readAcross_of_encode {T : StunAttrType} (t₁ t₂ : TransactionId) {addr : StunAddress}
    (hfam : addr.family = .ipv4 ∨ addr.family = .ipv6) {xs : Bytes}
    (hroom : attrHeaderSize + (4 + addr.length) ≤ xs.length) :
    (StunAttribute.encode (.ofAddress t₁ addr : XorAddressAttrT T) xs.length).1 = true ∧
      ∃ b : XorAddressAttrT T,
        XorAddressAttrT.decode t₂
          (StunAttribute.writtenValue (.ofAddress t₁ addr : XorAddressAttrT T) xs) = some b ∧
        ReadAcross t₁ t₂ addr b := by
  obtain ⟨hok, hwritten⟩ := XorAddressAttrT.writes (.ofAddress t₁ addr : XorAddressAttrT T) hroom
  refine ⟨hok, ?_⟩
  rw [hwritten]
  obtain ⟨b, hb, hfamily, hport, hspan⟩ :=
    @XorAddressAttrT.exists_decode_wireValue T t₁ t₂ addr
  refine ⟨b, hb, readAcross_of_span ?_ hport hspan⟩
  rw [hfamily]
  rcases hfam with h4 | h6
  · rw [h4, if_pos rfl]
  · rw [h6, if_neg (by decide)]

/-! The address of sixteen bytes 0xAB, written under the ID 1, 2, 3, ... and read under another. -/

def tidA : TransactionId := ⟨[1, 2, 3, 4, 5, 6, 7, 8, 9, 10, 11, 12], rfl⟩

def tidB : TransactionId := ⟨[100, 101, 102, 103, 104, 105, 106, 107, 108, 109, 110, 111], rfl⟩

def ip6 : StunAddress := .ipv6 9999 ⟨List.replicate 16 0xAB, rfl⟩

theorem readAcross_of_encode_ip6 :
    ∃ b : XorMappedAddrAttr,
      XorAddressAttrT.decode tidB
        (StunAttribute.writtenValue (.ofAddress tidA ip6 : XorMappedAddrAttr)
          (List.replicate 24 0)) = some b ∧
      ReadAcross tidA tidB ip6 b ∧ b.addressSpan ≠ ip6.addressBytes := by
  have hroom : attrHeaderSize + (4 + ip6.length) ≤ (List.replicate 24 (0 : UInt8)).length := by
    decide
  obtain ⟨-, b, hb, hread⟩ := readAcross_of_encode tidA tidB (.inr rfl) hroom
  refine ⟨b, hb, hread, fun hsame => ?_⟩
  exact absurd ((hread.recovered rfl).1 hsame) (by decide)

/-! ## ALTERNATE-SERVER -/

/-- The value of MAPPED-ADDRESS, the layout of ALTERNATE-SERVER too: nothing is masked. -/
def StunAddress.plainValue (addr : StunAddress) : Bytes :=
  0 :: addr.family.code :: (writeBe16 addr.port ++ addr.addressBytes)

theorem portMask_ne_self (port : UInt16) : port ^^^ portMask ≠ port := by
  intro h
  have hzero : port ^^^ portMask = port ^^^ 0 := h.trans UInt16.xor_zero.symm
  exact absurd ((UInt16.xor_right_inj port).1 hzero) (by decide)

/-- Under any ID, the value written is not the plain one. -/
theorem wireValue_ne_plainValue {T : StunAttrType} (tid : TransactionId) (addr : StunAddress) :
    (.ofAddress tid addr : XorAddressAttrT T).wireValue ≠ addr.plainValue := by
  intro h
  rw [XorAddressAttrT.wireValue_mask, StunAddress.plainValue] at h
  have hbody := (List.cons.inj (List.cons.inj h).2).2
  exact portMask_ne_self addr.port (writeBe16_inj (List.append_inj hbody rfl).1)

/-- The values written under two IDs are the same for IPv4, and for IPv6 if the IDs are. -/
theorem wireValue_alike_iff {T : StunAttrType} (t₁ t₂ : TransactionId) (addr : StunAddress) :
    (.ofAddress t₁ addr : XorAddressAttrT T).wireValue =
        (.ofAddress t₂ addr : XorAddressAttrT T).wireValue ↔
      addr.family = .ipv4 ∨ t₁ = t₂ := by
  rw [XorAddressAttrT.wireValue_mask, XorAddressAttrT.wireValue_mask, List.cons_inj_right,
    List.cons_inj_right, List.append_cancel_left_eq, xorBytes_alike_iff]

/-- **ALTERNATE-SERVER is masked**: whatever the address and the ID, its value is not the plain one,
and of the plain one another port and another address are read. Two IDs write the same value only of
an IPv4 address, unless they are the same. -/
theorem alternateServer_masked (t₁ t₂ : TransactionId) {addr : StunAddress} {xs : Bytes}
    (hroom : attrHeaderSize + (4 + addr.length) ≤ xs.length) :
    (StunAttribute.encode (.ofAddress t₁ addr : AlternateServerAttr) xs.length).1 = true ∧
    (StunAttribute.encode (.ofAddress t₂ addr : AlternateServerAttr) xs.length).1 = true ∧
    StunAttribute.writtenValue (.ofAddress t₁ addr : AlternateServerAttr) xs ≠ addr.plainValue ∧
    (StunAttribute.writtenValue (.ofAddress t₁ addr : AlternateServerAttr) xs =
        StunAttribute.writtenValue (.ofAddress t₂ addr : AlternateServerAttr) xs ↔
      addr.family = .ipv4 ∨ t₁ = t₂) ∧
    ∃ a : AlternateServerAttr, XorAddressAttrT.decode t₂ addr.plainValue = some a ∧
      a.port ≠ addr.port ∧ a.addressSpan ≠ addr.addressBytes := by
  obtain ⟨hok₁, hwritten₁⟩ :=
    XorAddressAttrT.writes (.ofAddress t₁ addr : AlternateServerAttr) hroom
  obtain ⟨hok₂, hwritten₂⟩ :=
    XorAddressAttrT.writes (.ofAddress t₂ addr : AlternateServerAttr) hroom
  have hlen : addr.addressBytes.length = if addr.family = .ipv4 then 4 else 16 :=
    addr.length_addressBytes
  obtain ⟨a, ha, -, hport, hspan⟩ :=
    @XorAddressAttrT.exists_decode_value .alternateServer t₂ addr.family addr.port _ hlen
  refine ⟨hok₁, hok₂, ?_, ?_, a, ha, ?_, ?_⟩
  · rw [hwritten₁]
    exact wireValue_ne_plainValue t₁ addr
  · rw [hwritten₁, hwritten₂]
    exact wireValue_alike_iff t₁ t₂ addr
  · rw [hport]
    exact portMask_ne_self addr.port
  · rw [hspan]
    exact xorBytes_ne_self addr t₂

/-! The server 192.0.2.1, port 3478. -/

def server : StunAddress := .ipv4 3478 ⟨[192, 0, 2, 1], rfl⟩

theorem alternateServer_masked_server :
    StunAttribute.writtenValue (.ofAddress tidA server : AlternateServerAttr)
        (List.replicate 12 0) ≠ server.plainValue ∧
    ∃ a : AlternateServerAttr, XorAddressAttrT.decode tidB server.plainValue = some a ∧
      a.port ≠ server.port ∧ a.addressSpan ≠ server.addressBytes := by
  have hroom : attrHeaderSize + (4 + server.length) ≤ (List.replicate 12 (0 : UInt8)).length := by
    decide
  obtain ⟨-, -, hwritten, -, hread⟩ := alternateServer_masked tidA tidB hroom
  exact ⟨hwritten, hread⟩

/-- It is announced as 225.18.166.67, port 11396, and so is it read when another implementation
announces it. The IPv6 address is not even announced alike under two IDs. -/
theorem server_misread :
    server.plainValue = [0, 1, 0x0D, 0x96, 192, 0, 2, 1] ∧
    StunAttribute.writtenValue (.ofAddress tidA server : AlternateServerAttr)
        (List.replicate 12 0) = [0, 1, 0x2C, 0x84, 225, 18, 166, 67] ∧
    (XorAddressAttrT.decode tidA server.plainValue : Option AlternateServerAttr) =
      some (.ofAddress tidA (.ipv4 11396 ⟨[225, 18, 166, 67], rfl⟩)) ∧
    StunAttribute.writtenValue (.ofAddress tidA ip6 : AlternateServerAttr) (List.replicate 24 0) ≠
      StunAttribute.writtenValue (.ofAddress tidB ip6 : AlternateServerAttr)
        (List.replicate 24 0) := by
  decide

end Stunxx
