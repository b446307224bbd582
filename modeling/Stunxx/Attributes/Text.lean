import Stunxx.Span

/-!
# Attributes with a variable-length text or payload

`StringAttrT.hpp`, `ErrorCodeAttr.hpp`, `AddressErrorCodeAttr.hpp` and `DataAttr.hpp`. In all four
`length()` casts the size of the value to 16 bits. `DataAttr` checks its span against the real
size; the other three check it against the cast one, and copy the whole value all the same.
-/

namespace Stunxx

open Overlay

/-! ## StringAttrT -/

/-- `template<StunAttrType T, std::size_t MaxBytes> class StringAttrT`. -/
structure StringAttrT (T : StunAttrType) (maxBytes : Nat) where
  value : Bytes
deriving DecidableEq

namespace StringAttrT

variable {T : StunAttrType} {maxBytes : Nat}

def length (a : StringAttrT T maxBytes) : UInt16 := UInt16.ofNat a.value.length

def paddedLength (a : StringAttrT T maxBytes) : Nat := roundUp4 a.length.toNat

def decode (buffer : Bytes) : Option (StringAttrT T maxBytes) :=
  if maxBytes < buffer.length then none else some ⟨buffer⟩

/-- The stores behind the header: the padded area is cleared, then the whole string is copied. -/
def body (a : StringAttrT T maxBytes) : List Store :=
  [memset attrHeaderSize 0 a.paddedLength, memcpy attrHeaderSize a.value]

def encode (a : StringAttrT T maxBytes) (size : Nat) : Bool × List Store :=
  if size < a.paddedLength + attrHeaderSize then (false, [])
  else (true, memcpy 0 (writeHeader T.code a.length) :: a.body)

instance : StunAttribute (StringAttrT T maxBytes) where
  type := T
  length a := a.length.toNat
  encode := encode
  decode _ := decode

theorem toNat_length (a : StringAttrT T maxBytes) : a.length.toNat = a.value.length % 65536 :=
  UInt16.toNat_ofNat'

/-- The cast cuts a size of 65536 bytes to zero. -/
theorem length_of_cut {a : StringAttrT T maxBytes} (h : a.value.length = 65536) :
    StunAttribute.length a = 0 := by
  have hcast := a.toNat_length
  rwa [h] at hcast

theorem patch_body {a : StringAttrT T maxBytes} (h : a.value.length < 65536) (xs : Bytes)
    (base : Nat) :
    patch xs base a.body =
      overlay xs (base + attrHeaderSize) (a.value ++ padding a.value.length) := by
  have hlen : a.paddedLength = roundUp4 a.value.length := by
    rw [paddedLength, toNat_length, Nat.mod_eq_of_lt h]
  have hcont : Contiguous (attrHeaderSize + 0) [memcpy attrHeaderSize a.value] := ⟨rfl, trivial⟩
  have hle := le_roundUp4 a.value.length
  rw [body, patch_memset xs base hcont (by simpa [hlen] using hle), hlen]
  simp [padding]

theorem bounds (a : StringAttrT T maxBytes) {s : Store} (hs : s ∈ a.body) :
    attrHeaderSize ≤ s.dst ∧ s.dst + s.items.length ≤
      attrHeaderSize + max a.paddedLength a.value.length := by
  simp only [body, List.mem_cons, List.not_mem_nil, or_false] at hs
  rcases hs with rfl | rfl <;> simp

/-- A value that the cast cuts has a store that ends with it. -/
theorem exists_last {a : StringAttrT T maxBytes} (h : 65536 ≤ a.value.length) :
    ∃ s ∈ a.body, s.items ≠ [] ∧ s.dst + s.items.length = attrHeaderSize + a.value.length := by
  have hne : a.value ≠ [] := List.ne_nil_of_length_pos (by omega)
  exact ⟨memcpy attrHeaderSize a.value, List.mem_cons_of_mem _ List.mem_cons_self, hne, rfl⟩

theorem decode_value {a : StringAttrT T maxBytes} (h : a.value.length ≤ maxBytes) :
    decode a.value = some a := if_neg (Nat.not_lt.2 h)

theorem limit_of_decode {bs : Bytes} {a : StringAttrT T maxBytes} (h : decode bs = some a) :
    a.value.length ≤ maxBytes := by
  obtain ⟨hfits, ha⟩ := Option.ite_none_left_eq_some.1 h
  cases ha
  exact Nat.not_lt.1 hfits

theorem length_of_decode {bs : Bytes} {a : StringAttrT T maxBytes} (h : decode bs = some a) :
    a.value.length ≤ bs.length := by
  obtain ⟨-, ha⟩ := Option.ite_none_left_eq_some.1 h
  cases ha
  exact Nat.le_refl _

instance : AttributeSpec (StringAttrT T maxBytes) :=
  .ofCast body (fun a => a.value) (fun _ a => a.value.length ≤ maxBytes)
    (fun a size => by
      show a.encode size = _
      rw [encode, Nat.add_comm]
      simp only [StunAttribute.length, StunAttribute.type, UInt16.ofNat_toNat]
      rfl)
    (fun a => a.toNat_length) (fun a _ hs => a.bounds hs) (fun _ h => exists_last h)
    (fun _ h => patch_body h) (fun _ _ h _ => decode_value h) (fun _ _ _ h => length_of_decode h)

end StringAttrT

/-- `std::numeric_limits<std::size_t>::max()`. -/
def sizeMax : Nat := 2 ^ 64 - 1

abbrev UsernameAttr := StringAttrT .username 513
abbrev RealmAttr := StringAttrT .realm 763
abbrev NonceAttr := StringAttrT .nonce 763
abbrev SoftwareAttr := StringAttrT .software sizeMax
abbrev AlternateDomainAttr := StringAttrT .alternateDomain 763

/-! ## Error codes -/

section ErrorCodes

variable (code : UInt16)

/-- `static_cast<uint8_t>(error_code_ / 100)`. -/
def errorClass : UInt8 := (code / 100).toUInt8

/-- `static_cast<uint8_t>(error_code_ % 100)`. -/
def errorNumber : UInt8 := (code % 100).toUInt8

/-- `if (!reason_.empty()) std::memcpy(body + 4, ...)`. -/
def copyReason (reason : Bytes) : List Store :=
  if reason.isEmpty then [] else [memcpy (attrHeaderSize + 4) reason]

theorem toNat_errorClass_and : (errorClass code &&& 0x07).toNat = code.toNat / 100 % 8 := by
  have hlow := Nat.and_two_pow_sub_one_eq_mod (code.toNat / 100 % 256) 3
  have hclass : (errorClass code).toNat = code.toNat / 100 % 256 := by simp [errorClass]
  rw [UInt8.toNat_and, hclass]
  exact hlow.trans (by omega)

theorem toNat_errorNumber : (errorNumber code).toNat = code.toNat % 100 := by
  have hlt : code.toNat % 100 < 256 := by omega
  simpa [errorNumber] using hlt

/-- A class and a number make a code without wrapping. -/
theorem toNat_errorCode (cls num : UInt8) :
    (cls.toUInt16 * 100 + num.toUInt16).toNat = cls.toNat * 100 + num.toNat := by
  have hcls := cls.toNat_lt
  have hnum := num.toNat_lt
  simp only [UInt16.toNat_add, UInt16.toNat_mul, UInt8.toNat_toUInt16]
  show (cls.toNat * 100 % 65536 + num.toNat) % 65536 = _
  omega

variable {code}

/-- A code between 300 and 699 is rebuilt from its class and its number. -/
theorem errorCode_rebuild (hlo : 300 ≤ code) (hhi : code ≤ 699) :
    ¬(errorClass code &&& 0x07 < 3 ∨ 6 < errorClass code &&& 0x07) ∧ ¬99 < errorNumber code ∧
      (errorClass code &&& 0x07).toUInt16 * 100 + (errorNumber code).toUInt16 = code := by
  have hclass := toNat_errorClass_and code
  have hnum := toNat_errorNumber code
  have hlo' : 300 ≤ code.toNat := hlo
  have hhi' : code.toNat ≤ 699 := hhi
  rw [Nat.mod_eq_of_lt (by omega)] at hclass
  simp only [UInt8.lt_iff_toNat_lt, hclass, hnum]
  refine ⟨?_, ?_, UInt16.toNat_inj.1 ?_⟩
  · show ¬(code.toNat / 100 < 3 ∨ 6 < code.toNat / 100)
    omega
  · show ¬99 < code.toNat % 100
    omega
  · rw [toNat_errorCode, hclass, hnum]
    omega

/-- A class between 3 and 6 and a number up to 99 make a code between 300 and 699. -/
theorem errorCode_range {cls num : UInt8} (hcls : ¬(cls < 3 ∨ 6 < cls)) (hnum : ¬99 < num) :
    300 ≤ cls.toUInt16 * 100 + num.toUInt16 ∧ cls.toUInt16 * 100 + num.toUInt16 ≤ 699 := by
  rw [not_or] at hcls
  simp only [UInt8.lt_iff_toNat_lt] at hcls hnum
  have hthree : (3 : UInt8).toNat = 3 := rfl
  have hsix : (6 : UInt8).toNat = 6 := rfl
  have htop : (99 : UInt8).toNat = 99 := rfl
  have hlo : (300 : UInt16).toNat = 300 := rfl
  have hhi : (699 : UInt16).toNat = 699 := rfl
  rw [UInt16.le_iff_toNat_le, UInt16.le_iff_toNat_le, toNat_errorCode, hlo, hhi]
  omega

/-- The class survives the shift into the top three bits of a byte and back. -/
theorem errorClass_shift (c : UInt8) : ((c &&& 0x07) <<< 5 &&& 0xE0) >>> 5 = c &&& 0x07 := by
  apply UInt8.toBitVec_inj.1
  ext i hi
  interval_cases i <;> simp

theorem copyReason_contiguous (reason : Bytes) :
    Contiguous (attrHeaderSize + 4) (copyReason reason) := by
  unfold copyReason
  split
  · trivial
  · exact ⟨rfl, trivial⟩

theorem copyReason_items (reason : Bytes) : (copyReason reason).flatMap Patch.items = reason := by
  unfold copyReason
  split
  · next h => rw [List.isEmpty_iff.1 h]; rfl
  · simp

theorem copyReason_bounds {reason : Bytes} {s : Store} (hs : s ∈ copyReason reason) :
    attrHeaderSize ≤ s.dst ∧ s.dst + s.items.length ≤ attrHeaderSize + (4 + reason.length) := by
  have hbounds := (copyReason_contiguous reason).bounds hs
  rw [copyReason_items] at hbounds
  omega

theorem mem_copyReason {reason : Bytes} (h : reason ≠ []) :
    memcpy (attrHeaderSize + 4) reason ∈ copyReason reason := by
  rw [copyReason, if_neg (by simpa using h)]
  exact List.mem_singleton_self _

end ErrorCodes

/-! ## ErrorCodeAttr -/

structure ErrorCodeAttr where
  errorCode : UInt16 := 0
  value : Bytes := []
deriving DecidableEq

namespace ErrorCodeAttr

def length (a : ErrorCodeAttr) : UInt16 := UInt16.ofNat (4 + a.value.length)

def paddedLength (a : ErrorCodeAttr) : Nat := roundUp4 a.length.toNat

def decode : Bytes → Option ErrorCodeAttr
  | _ :: _ :: b2 :: num :: reason =>
    let cls := b2 &&& 0x07
    if cls < 3 ∨ 6 < cls then none
    else if 99 < num then none
    else some ⟨cls.toUInt16 * 100 + num.toUInt16, reason⟩
  | _ => none

def body (a : ErrorCodeAttr) : List Store :=
  memset attrHeaderSize 0 a.paddedLength ::
    memcpy (attrHeaderSize + 2) [errorClass a.errorCode &&& 0x07] ::
    memcpy (attrHeaderSize + 3) [errorNumber a.errorCode] :: copyReason a.value

def encode (a : ErrorCodeAttr) (size : Nat) : Bool × List Store :=
  if size < attrHeaderSize + a.paddedLength then (false, [])
  else (true, memcpy 0 (writeHeader StunAttrType.errorCode.code a.length) :: a.body)

instance : StunAttribute ErrorCodeAttr where
  type := .errorCode
  length a := a.length.toNat
  encode := encode
  decode _ := decode

/-- The bytes of an ERROR-CODE value. -/
def wireValue (a : ErrorCodeAttr) : Bytes :=
  0 :: 0 :: (errorClass a.errorCode &&& 0x07) :: errorNumber a.errorCode :: a.value

theorem length_wireValue (a : ErrorCodeAttr) : a.wireValue.length = 4 + a.value.length := by
  simp only [wireValue, List.length_cons]
  omega

theorem toNat_length (a : ErrorCodeAttr) : a.length.toNat = a.wireValue.length % 65536 := by
  rw [length_wireValue]
  exact UInt16.toNat_ofNat'

theorem patch_body {a : ErrorCodeAttr} (h : a.wireValue.length < 65536) (xs : Bytes)
    (base : Nat) :
    patch xs base a.body =
      overlay xs (base + attrHeaderSize) (a.wireValue ++ padding a.wireValue.length) := by
  have hlen : a.paddedLength = roundUp4 a.wireValue.length := by
    rw [paddedLength, toNat_length, Nat.mod_eq_of_lt h]
  have hcont : Contiguous (attrHeaderSize + 2)
      (memcpy (attrHeaderSize + 2) [errorClass a.errorCode &&& 0x07] ::
        memcpy (attrHeaderSize + 3) [errorNumber a.errorCode] :: copyReason a.value) :=
    ⟨rfl, rfl, copyReason_contiguous a.value⟩
  have hle := le_roundUp4 a.wireValue.length
  have hsize := a.length_wireValue
  rw [body, patch_memset xs base hcont
    (by simp only [List.flatMap_cons, copyReason_items, memcpy_items, List.length_append,
      List.length_singleton]; omega), hlen]
  simp only [List.flatMap_cons, copyReason_items, memcpy_items, padding, hsize]
  congr 1
  simp [wireValue]
  omega

theorem bounds (a : ErrorCodeAttr) {s : Store} (hs : s ∈ a.body) :
    attrHeaderSize ≤ s.dst ∧ s.dst + s.items.length ≤
      attrHeaderSize + max a.paddedLength a.wireValue.length := by
  have hsize := a.length_wireValue
  simp only [body, List.mem_cons] at hs
  rcases hs with rfl | rfl | rfl | hs
  · simp
  · simp; omega
  · simp; omega
  · have := copyReason_bounds hs
    omega

theorem exists_last {a : ErrorCodeAttr} (h : 65536 ≤ a.wireValue.length) :
    ∃ s ∈ a.body, s.items ≠ [] ∧
      s.dst + s.items.length = attrHeaderSize + a.wireValue.length := by
  have hsize := a.length_wireValue
  have hne : a.value ≠ [] := List.ne_nil_of_length_pos (by omega)
  refine ⟨memcpy (attrHeaderSize + 4) a.value, ?_, hne, by simp; omega⟩
  exact List.mem_cons_of_mem _ <| List.mem_cons_of_mem _ <| List.mem_cons_of_mem _ <|
    mem_copyReason hne

theorem decode_wireValue {a : ErrorCodeAttr} (hlo : 300 ≤ a.errorCode)
    (hhi : a.errorCode ≤ 699) : decode a.wireValue = some a := by
  obtain ⟨hcls, hnum, hcode⟩ := errorCode_rebuild hlo hhi
  have hmask : errorClass a.errorCode &&& 0x07 &&& 0x07 = errorClass a.errorCode &&& 0x07 := by
    rw [UInt8.and_assoc]; rfl
  simp only [decode, wireValue, hmask]
  rw [if_neg hcls, if_neg hnum, hcode]

theorem range_of_decode {bs : Bytes} {a : ErrorCodeAttr} (h : decode bs = some a) :
    300 ≤ a.errorCode ∧ a.errorCode ≤ 699 := by
  unfold decode at h
  split at h
  · simp only [Option.ite_none_left_eq_some, Option.some.injEq] at h
    obtain ⟨hcls, hnum, rfl⟩ := h
    exact errorCode_range hcls hnum
  · cases h

theorem length_of_decode {bs : Bytes} {a : ErrorCodeAttr} (h : decode bs = some a) :
    a.wireValue.length ≤ bs.length := by
  unfold decode at h
  split at h
  · simp only at h
    split at h
    · cases h
    · split at h
      · cases h
      · cases h
        simp [wireValue]
  · cases h

instance : AttributeSpec ErrorCodeAttr :=
  .ofCast body wireValue (fun _ a => 300 ≤ a.errorCode ∧ a.errorCode ≤ 699)
    (fun a size => by
      show a.encode size = _
      simp only [encode, StunAttribute.length, StunAttribute.type, UInt16.ofNat_toNat]
      rfl)
    toNat_length (fun a _ hs => a.bounds hs) (fun _ h => exists_last h)
    (fun _ h => patch_body h) (fun _ _ h _ => decode_wireValue h.1 h.2)
    (fun _ _ _ h => length_of_decode h)

/-! ### Reason phrases -/

open StunErrorCode in
/-- The cases of the switch in `errorMessage`. -/
def errorMessages : List (StunErrorCode × String) :=
  [(tryAlternate, "Try Alternate"),
    (badRequest, "Bad Request"),
    (unauthenticated, "Unauthenticated"),
    (unknownAttribute, "Unknown Attribute"),
    (staleNonce, "Stale Nonce"),
    (serverError, "Server Error"),
    (forbidden, "Forbidden"),
    (allocationMismatch, "Allocation Mismatch"),
    (wrongCredentials, "Wrong Credentials"),
    (unsupportedTransport, "Unsupported Transport Protocol"),
    (allocationQuotaReached, "Allocation Quota Reached"),
    (insufficientCapacity, "Insufficient Capacity"),
    (addressFamNotSupported, "Address Family Not Supported"),
    (peerAddrFamMismatch, "Peer Address Family Mismatch"),
    (connectionAlreadyExists, "Connection Already Exists"),
    (connectionTimeoutOrFailure, "Connection Timeout or Failure"),
    (globalFailure, "Global Failure")]

def errorMessage (code : StunErrorCode) : String :=
  (errorMessages.lookup code).getD "Unknown Error"

/-- The constructor from an enumerator. -/
def ofCode (code : StunErrorCode) : ErrorCodeAttr :=
  ⟨code.code, (errorMessage code).toUTF8.data.toList⟩

theorem errorMessage_cases (code : StunErrorCode) :
    (code, errorMessage code) ∈ errorMessages ∨ errorMessage code = "Unknown Error" := by
  unfold errorMessage
  cases h : errorMessages.lookup code with
  | none => exact .inr rfl
  | some text =>
    obtain ⟨front, rest, hsplit, -⟩ := List.lookup_eq_some_iff.1 h
    rw [hsplit]
    exact .inl (List.mem_append_right front List.mem_cons_self)

/-- No text is long. -/
theorem length_ofCode_value (code : StunErrorCode) : (ofCode code).value.length ≤ 30 := by
  have htable : ∀ entry ∈ errorMessages, entry.2.toUTF8.data.toList.length ≤ 30 := by decide
  rcases errorMessage_cases code with h | h
  · exact htable _ h
  · rw [ofCode, h]
    show "Unknown Error".toUTF8.data.toList.length ≤ 30
    decide

/-- Every code with a text of its own is in the limits of the class. -/
theorem limits_of_mem {code : StunErrorCode} {text : String} (h : (code, text) ∈ errorMessages) :
    300 ≤ code.code ∧ code.code ≤ 699 := by
  have htable : ∀ entry ∈ errorMessages, 300 ≤ entry.1.code ∧ entry.1.code ≤ 699 := by decide
  exact htable _ h

end ErrorCodeAttr

/-! ## AddressErrorCodeAttr -/

structure AddressErrorCodeAttr where
  family : AddressFamily := .ipv4
  errorCode : UInt16 := 0
  value : Bytes := []
deriving DecidableEq

namespace AddressErrorCodeAttr

def length (a : AddressErrorCodeAttr) : UInt16 := UInt16.ofNat (4 + a.value.length)

def paddedLength (a : AddressErrorCodeAttr) : Nat := roundUp4 a.length.toNat

def decode : Bytes → Option AddressErrorCodeAttr
  | b0 :: _ :: b2 :: num :: reason =>
    let fam : AddressFamily := ⟨b0⟩
    if fam ≠ .ipv4 ∧ fam ≠ .ipv6 then none
    else
      let cls := (b2 &&& 0xE0) >>> 5
      if cls < 3 ∨ 6 < cls then none
      else if 99 < num then none
      else
        let code := cls.toUInt16 * 100 + num.toUInt16
        -- address family not supported, insufficient capacity
        if code ≠ 440 ∧ code ≠ 508 then none
        else some ⟨fam, code, reason⟩
  | _ => none

def body (a : AddressErrorCodeAttr) : List Store :=
  memset attrHeaderSize 0 a.paddedLength :: memcpy attrHeaderSize [a.family.code] ::
    memcpy (attrHeaderSize + 2) [(errorClass a.errorCode &&& 0x07) <<< 5] ::
    memcpy (attrHeaderSize + 3) [errorNumber a.errorCode] :: copyReason a.value

def encode (a : AddressErrorCodeAttr) (size : Nat) : Bool × List Store :=
  if size < attrHeaderSize + a.paddedLength then (false, [])
  else (true, memcpy 0 (writeHeader StunAttrType.addressErrorCode.code a.length) :: a.body)

instance : StunAttribute AddressErrorCodeAttr where
  type := .addressErrorCode
  length a := a.length.toNat
  encode := encode
  decode _ := decode

/-- The bytes of an ADDRESS-ERROR-CODE value. -/
def wireValue (a : AddressErrorCodeAttr) : Bytes :=
  a.family.code :: 0 :: ((errorClass a.errorCode &&& 0x07) <<< 5) :: errorNumber a.errorCode ::
    a.value

theorem length_wireValue (a : AddressErrorCodeAttr) :
    a.wireValue.length = 4 + a.value.length := by
  simp only [wireValue, List.length_cons]
  omega

theorem toNat_length (a : AddressErrorCodeAttr) :
    a.length.toNat = a.wireValue.length % 65536 := by
  rw [length_wireValue]
  exact UInt16.toNat_ofNat'

theorem patch_body {a : AddressErrorCodeAttr} (h : a.wireValue.length < 65536) (xs : Bytes)
    (base : Nat) :
    patch xs base a.body =
      overlay xs (base + attrHeaderSize) (a.wireValue ++ padding a.wireValue.length) := by
  have hlen : a.paddedLength = roundUp4 a.wireValue.length := by
    rw [paddedLength, toNat_length, Nat.mod_eq_of_lt h]
  have hcont : Contiguous (attrHeaderSize + 2)
      (memcpy (attrHeaderSize + 2) [(errorClass a.errorCode &&& 0x07) <<< 5] ::
        memcpy (attrHeaderSize + 3) [errorNumber a.errorCode] :: copyReason a.value) :=
    ⟨rfl, rfl, copyReason_contiguous a.value⟩
  have hle := le_roundUp4 a.wireValue.length
  have hsize := a.length_wireValue
  obtain ⟨n, hn⟩ : ∃ n, a.paddedLength = n + 1 := ⟨a.paddedLength - 1, by omega⟩
  have hroom : 3 + a.value.length ≤ n := by omega
  -- the family byte is stored into the cleared area, the rest behind a byte left zero
  rw [body, patch_cons, patch_cons, patch_of_contiguous _ _ hcont]
  simp only [memset_dst, memset_items, memcpy_dst, memcpy_items, List.flatMap_cons,
    copyReason_items]
  have hplace : base + (attrHeaderSize + 2) - (base + attrHeaderSize) = 1 + 1 := by omega
  rw [hn, overlay_overlay xs (Nat.le_refl _) (by simp), Nat.sub_self,
    overlay_replicate 0 (by simp), overlay_overlay xs (by omega) (by simp; omega), hplace]
  simp only [List.replicate_zero, List.nil_append, List.cons_append]
  rw [overlay_cons_succ, overlay_replicate 0 (by simp; omega)]
  have hrest : roundUp4 a.wireValue.length - a.wireValue.length =
      n - (1 + (a.value.length + 1 + 1)) := by omega
  rw [padding, hrest]
  simp [wireValue]

theorem bounds (a : AddressErrorCodeAttr) {s : Store} (hs : s ∈ a.body) :
    attrHeaderSize ≤ s.dst ∧ s.dst + s.items.length ≤
      attrHeaderSize + max a.paddedLength a.wireValue.length := by
  have hsize := a.length_wireValue
  simp only [body, List.mem_cons] at hs
  rcases hs with rfl | rfl | rfl | rfl | hs
  · simp
  · simp; omega
  · simp; omega
  · simp; omega
  · have := copyReason_bounds hs
    omega

theorem exists_last {a : AddressErrorCodeAttr} (h : 65536 ≤ a.wireValue.length) :
    ∃ s ∈ a.body, s.items ≠ [] ∧
      s.dst + s.items.length = attrHeaderSize + a.wireValue.length := by
  have hsize := a.length_wireValue
  have hne : a.value ≠ [] := List.ne_nil_of_length_pos (by omega)
  refine ⟨memcpy (attrHeaderSize + 4) a.value, ?_, hne, by simp; omega⟩
  exact List.mem_cons_of_mem _ <| List.mem_cons_of_mem _ <| List.mem_cons_of_mem _ <|
    List.mem_cons_of_mem _ <| mem_copyReason hne

theorem decode_wireValue {a : AddressErrorCodeAttr}
    (hfam : a.family = .ipv4 ∨ a.family = .ipv6) (hcode : a.errorCode = 440 ∨ a.errorCode = 508) :
    decode a.wireValue = some a := by
  have hrange : 300 ≤ a.errorCode ∧ a.errorCode ≤ 699 := by
    rcases hcode with h | h <;> rw [h] <;> decide
  obtain ⟨hcls, hnum, hback⟩ := errorCode_rebuild hrange.1 hrange.2
  simp only [decode, wireValue, errorClass_shift]
  rw [if_neg (by tauto), if_neg hcls, if_neg hnum, hback, if_neg (by tauto)]

theorem limits_of_decode {bs : Bytes} {a : AddressErrorCodeAttr} (h : decode bs = some a) :
    (a.family = .ipv4 ∨ a.family = .ipv6) ∧ (a.errorCode = 440 ∨ a.errorCode = 508) := by
  unfold decode at h
  split at h
  · simp only [Option.ite_none_left_eq_some, Option.some.injEq] at h
    obtain ⟨hfam, -, -, hcode, rfl⟩ := h
    exact ⟨by tauto, by tauto⟩
  · cases h

theorem length_of_decode {bs : Bytes} {a : AddressErrorCodeAttr} (h : decode bs = some a) :
    a.wireValue.length ≤ bs.length := by
  unfold decode at h
  split at h
  · simp only [Option.ite_none_left_eq_some, Option.some.injEq] at h
    obtain ⟨-, -, -, -, rfl⟩ := h
    simp [wireValue]
  · cases h

instance : AttributeSpec AddressErrorCodeAttr :=
  .ofCast body wireValue
    (fun _ a => (a.family = .ipv4 ∨ a.family = .ipv6) ∧ (a.errorCode = 440 ∨ a.errorCode = 508))
    (fun a size => by
      show a.encode size = _
      simp only [encode, StunAttribute.length, StunAttribute.type, UInt16.ofNat_toNat]
      rfl)
    toNat_length (fun a _ hs => a.bounds hs) (fun _ h => exists_last h)
    (fun _ h => patch_body h) (fun _ _ h _ => decode_wireValue h.1 h.2)
    (fun _ _ _ h => length_of_decode h)

/-- The constructor from an enumerator; it takes the text from `ErrorCodeAttr`. -/
def ofCode (family : AddressFamily) (code : StunErrorCode) : AddressErrorCodeAttr :=
  ⟨family, code.code, (ErrorCodeAttr.errorMessage code).toUTF8.data.toList⟩

def errorMessage (code : StunErrorCode) : String :=
  if code = .addressFamNotSupported then "Address Family Not Supported"
  else if code = .insufficientCapacity then "Insufficient Capacity"
  else "Unknown Error"

/-- The texts of the two classes agree on the codes an ADDRESS-ERROR-CODE may carry. -/
theorem errorMessage_eq {code : StunErrorCode} (h : code.code = 440 ∨ code.code = 508) :
    errorMessage code = ErrorCodeAttr.errorMessage code := by
  obtain ⟨code⟩ := code
  rcases h with rfl | rfl <;> decide

end AddressErrorCodeAttr

/-! ## DataAttr -/

structure DataAttr where
  value : Bytes := []
deriving DecidableEq

namespace DataAttr

def length (a : DataAttr) : UInt16 := UInt16.ofNat a.value.length

def paddedLength (a : DataAttr) : Nat := roundUp4 a.value.length

def decode (buffer : Bytes) : Option DataAttr := some ⟨buffer⟩

def body (a : DataAttr) : List Store :=
  (if a.value.isEmpty then [] else [memcpy attrHeaderSize a.value]) ++
    if 0 < a.paddedLength - a.value.length then
      [memset (attrHeaderSize + a.value.length) 0 (a.paddedLength - a.value.length)]
    else []

/-- Here the span is checked against the size of the data, not against `length()`. -/
def encode (a : DataAttr) (size : Nat) : Bool × List Store :=
  if size < attrHeaderSize + a.paddedLength then (false, [])
  else (true, memcpy 0 (writeHeader StunAttrType.data.code (UInt16.ofNat a.value.length)) :: a.body)

instance : StunAttribute DataAttr where
  type := .data
  length a := a.length.toNat
  encode := encode
  decode _ := decode

theorem toNat_length (a : DataAttr) : a.length.toNat = a.value.length % 65536 :=
  UInt16.toNat_ofNat'

theorem contiguous (a : DataAttr) : Contiguous attrHeaderSize a.body := by
  unfold body
  by_cases hempty : a.value = []
  · simp [hempty, paddedLength, roundUp4, Contiguous]
  · rw [if_neg (by simpa using hempty)]
    split
    · exact ⟨rfl, rfl, trivial⟩
    · exact ⟨rfl, trivial⟩

theorem items_body (a : DataAttr) :
    a.body.flatMap Patch.items = a.value ++ padding a.value.length := by
  unfold body padding paddedLength
  by_cases hempty : a.value = []
  · simp [hempty, roundUp4]
  · rw [if_neg (by simpa using hempty)]
    split
    · simp
    · next h => simp [Nat.eq_zero_of_not_pos h]

theorem end_le (a : DataAttr) {s : Store} (hs : s ∈ a.body) :
    s.dst + s.items.length ≤ attrHeaderSize + roundUp4 a.value.length := by
  have hbound := (a.contiguous.bounds hs).2
  have hpad := le_roundUp4 a.value.length
  rw [items_body, List.length_append, length_padding] at hbound
  omega

instance : AttributeSpec DataAttr where
  ready _ := true
  room a := attrHeaderSize + a.paddedLength
  body := body
  valueSize a := a.value.length
  truncates a := 65536 ≤ a.value.length
  wireValue a := a.value
  InLimits _ _ := True
  encode_eq a size := by
    show a.encode size = _
    have hcast : UInt16.ofNat a.length.toNat = UInt16.ofNat a.value.length := UInt16.ofNat_toNat
    simp only [encode, StunAttribute.length, StunAttribute.type, hcast]
    by_cases h : size < attrHeaderSize + a.paddedLength
    · rw [if_pos h, if_neg (by omega)]
    · rw [if_neg h, if_pos ⟨trivial, by omega⟩]
  le_dst_body a s hs := (a.contiguous.bounds hs).1
  body_reach a _ hfit s hs := by
    have hend := a.end_le hs
    have hlen := a.toNat_length
    rw [Nat.mod_eq_of_lt (by omega)] at hlen
    rwa [← hlen] at hend
  body_spill a hlong := by
    have hlt := roundUp4_lt (a.value.length % 65536)
    have hne : a.value ≠ [] := List.ne_nil_of_length_pos (by omega)
    refine ⟨memcpy attrHeaderSize a.value, ?_, hne, ?_⟩
    · rw [body, if_neg (by simpa using hne)]
      exact List.mem_append_left _ (List.mem_singleton_self _)
    · show attrHeaderSize + roundUp4 a.length.toNat < attrHeaderSize + a.value.length
      rw [toNat_length]
      omega
  room_eq a _ hfit := by
    show _ = attrHeaderSize + roundUp4 a.length.toNat
    rw [toNat_length, Nat.mod_eq_of_lt (by omega)]
    rfl
  length_eq a _ hfit := by
    show a.length.toNat = _
    rw [toNat_length, Nat.mod_eq_of_lt (by omega)]
  not_truncates _ h := by omega
  length_wireValue _ _ := rfl
  patch_body a _ _ xs base := by rw [patch_of_contiguous xs base a.contiguous, items_body]
  decode_wireValue _ _ _ _ := rfl
  valueSize_le_of_decode _ bs a h := by
    cases h
    exact Nat.le_refl _

end DataAttr

end Stunxx
