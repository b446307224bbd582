import Stunxx.Span

/-!
# MESSAGE-INTEGRITY

`MessageIntegrityAttrT.hpp`. An object carries a key, from which `compute` makes the HMAC, or an
HMAC read from the wire. `encode` refuses an HMAC that does not have the size of the digest.
-/

namespace Stunxx

open Overlay

/-- `template<StunAttrType T> class MessageIntegrityAttrT`. -/
structure MessageIntegrityAttrT (T : StunAttrType) where
  key : Bytes := []
  hmac : Bytes := []
deriving DecidableEq

namespace MessageIntegrityAttrT

variable {T : StunAttrType}

def isSha256 (T : StunAttrType) : Bool := T == .messageIntegritySHA256

def expectedSize (T : StunAttrType) : Nat := if isSha256 T then 32 else 20

theorem expectedSize_cases (T : StunAttrType) : expectedSize T = 20 ∨ expectedSize T = 32 := by
  unfold expectedSize
  split
  · exact .inr rfl
  · exact .inl rfl

/-- The constructor from a key. -/
def ofKey (key : Bytes) : MessageIntegrityAttrT T := { key }

/-- The constructor from an HMAC. -/
def ofHmac (hmac : Bytes) : MessageIntegrityAttrT T := { hmac }

def value (a : MessageIntegrityAttrT T) : Bytes := a.hmac

def length (a : MessageIntegrityAttrT T) : UInt16 := UInt16.ofNat a.hmac.length

def paddedLength (a : MessageIntegrityAttrT T) : Nat := a.hmac.length

/-- The digest a class passes to `HMAC`. -/
def md (T : StunAttrType) : EvpMd := if isSha256 T then .sha256 else .sha1

/-- Compute the HMAC over `message`: whether it succeeded, and the object afterwards. -/
def compute [Platform] (a : MessageIntegrityAttrT T) (message : Bytes) :
    Bool × MessageIntegrityAttrT T :=
  if a.key.isEmpty then (false, a)
  else
    match Platform.hmac (md T) a.key message with
    | none => (false, a)
    | some result =>
      if result.length ≠ expectedSize T then (false, a) else (true, { a with hmac := result })

def body (a : MessageIntegrityAttrT T) : List Store :=
  [memcpy attrHeaderSize (a.hmac.take (expectedSize T))]

def encode (a : MessageIntegrityAttrT T) (size : Nat) : Bool × List Store :=
  if a.hmac.length ≠ expectedSize T then (false, [])
  else if size < attrHeaderSize + expectedSize T then (false, [])
  else (true, memcpy 0 (writeHeader T.code (UInt16.ofNat (expectedSize T))) :: a.body)

def decode (buffer : Bytes) : Option (MessageIntegrityAttrT T) :=
  if buffer.length ≠ expectedSize T then none else some (ofHmac buffer)

instance : StunAttribute (MessageIntegrityAttrT T) where
  type := T
  length a := a.length.toNat
  encode := encode
  decode _ := decode

/-- A successful `compute` leaves a digest of the expected size that `HMAC` returned. -/
theorem compute_eq_true [Platform] {a : MessageIntegrityAttrT T} {message : Bytes}
    (h : (a.compute message).1 = true) :
    Platform.hmac (md T) a.key message = some (a.compute message).2.hmac ∧
      (a.compute message).2.hmac.length = expectedSize T ∧ (a.compute message).2.key = a.key := by
  unfold compute at h ⊢
  split at h
  · cases h
  · next hkey =>
    rw [if_neg hkey]
    split at h
    · cases h
    · next result hresult =>
      split at h
      · cases h
      · next hsize =>
        simp only [if_neg hsize]
        exact ⟨hresult, not_not.1 hsize, trivial⟩

theorem compute_eq_false [Platform] {a : MessageIntegrityAttrT T} {message : Bytes}
    (h : (a.compute message).1 = false) : (a.compute message).2 = a := by
  unfold compute at h ⊢
  split
  · rfl
  · next hkey =>
    rw [if_neg hkey] at h
    split at h
    · rfl
    · next result hresult =>
      split at h
      · next hsize => simp only [if_pos hsize]
      · cases h

theorem hmac_of_decode {bs : Bytes} {a : MessageIntegrityAttrT T} (h : decode bs = some a) :
    a.key = [] ∧ a.hmac.length = expectedSize T := by
  obtain ⟨hsize, ha⟩ := Option.ite_none_left_eq_some.1 h
  cases ha
  exact ⟨rfl, not_not.1 hsize⟩

theorem toNat_length {a : MessageIntegrityAttrT T} (h : a.hmac.length = expectedSize T) :
    a.length.toNat = expectedSize T := by
  have hcases := expectedSize_cases T
  rw [length, UInt16.toNat_ofNat', h, Nat.mod_eq_of_lt (by omega)]

theorem roundUp4_expectedSize (T : StunAttrType) :
    roundUp4 (expectedSize T) = expectedSize T := by
  rcases expectedSize_cases T with h | h <;> rw [h] <;> rfl

instance : AttributeSpec (MessageIntegrityAttrT T) where
  ready a := a.hmac.length == expectedSize T
  room _ := attrHeaderSize + expectedSize T
  body := body
  valueSize a := a.hmac.length
  truncates _ := False
  wireValue a := a.hmac
  InLimits _ a := a.key = [] ∧ a.hmac.length = expectedSize T
  encode_eq a size := by
    show a.encode size = _
    rw [encode]
    by_cases hsize : a.hmac.length = expectedSize T
    · simp only [StunAttribute.length, StunAttribute.type, toNat_length hsize]
      by_cases h : size < attrHeaderSize + expectedSize T
      · rw [if_neg (not_not.2 hsize), if_pos h, if_neg (by omega)]
      · rw [if_neg (not_not.2 hsize), if_neg h, if_pos ⟨by simpa using hsize, by omega⟩]
    · rw [if_pos hsize, if_neg (by simp [hsize])]
  le_dst_body a s hs := by
    rw [List.mem_singleton.1 hs]
    exact Nat.le_refl _
  body_reach a hready _ s hs := by
    have hsize : a.hmac.length = expectedSize T := by simpa using hready
    rw [List.mem_singleton.1 hs]
    show attrHeaderSize + (a.hmac.take (expectedSize T)).length ≤
      attrHeaderSize + roundUp4 a.length.toNat
    rw [toNat_length hsize, roundUp4_expectedSize, List.length_take]
    omega
  body_spill _ h := h.elim
  room_eq a hready _ := by
    have hsize : a.hmac.length = expectedSize T := by simpa using hready
    show _ = attrHeaderSize + roundUp4 a.length.toNat
    rw [toNat_length hsize, roundUp4_expectedSize]
  length_eq a hready _ := by
    have hsize : a.hmac.length = expectedSize T := by simpa using hready
    exact (toNat_length hsize).trans hsize.symm
  not_truncates _ _ h := h
  length_wireValue _ _ := rfl
  patch_body a hready _ xs base := by
    have hsize : a.hmac.length = expectedSize T := by simpa using hready
    rw [body, patch_cons, patch_nil, memcpy_dst, memcpy_items, List.take_of_length_le hsize.le,
      padding, hsize, roundUp4_expectedSize, Nat.sub_self, List.replicate_zero, List.append_nil]
  decode_wireValue tid a h _ := by
    obtain ⟨hkey, hsize⟩ := h
    show decode a.hmac = some a
    rw [decode, if_neg (not_not.2 hsize), ofHmac, ← hkey]
  valueSize_le_of_decode tid bs a h := by
    obtain ⟨-, ha⟩ := Option.ite_none_left_eq_some.1 (show decode bs = some a from h)
    cases ha
    exact Nat.le_refl _

end MessageIntegrityAttrT

abbrev MessageIntegritySHA1Attr := MessageIntegrityAttrT .messageIntegrity
abbrev MessageIntegritySHA256Attr := MessageIntegrityAttrT .messageIntegritySHA256

end Stunxx
