import Stunxx.Attributes.Registry
import Stunxx.ChannelData
import Stunxx.Verify.DecodeLoop

/-!
# Checked attribute decoders

The `decode` of every class once more, by index as the headers write it: a read past the end of the
span, a write past the end of a local array and a size that would wrap are a `Fault`, as in
`Decoder::decode`. `CheckedDecode` says that the span of an attribute never gives one, whatever it
holds, and that what is read is what `decode` returns; the typed lookups inherit it
(`Decoder.receive_checked`).
-/

namespace Stunxx

open Overlay

/-! ## Reads of a span -/

/-- `buffer.subspan(i)`. -/
def readRest (buffer : Bytes) (i : Nat) :
    Except Fault { rest : Bytes // i + rest.length = buffer.length } :=
  if h : i ≤ buffer.length then
    .ok ⟨buffer.drop i, by rw [List.length_drop, Nat.add_sub_cancel' h]⟩
  else .error (.outOfBounds i)

/-- `array[i] = value`. -/
def writeByte (array : Bytes) (i : Nat) (value : UInt8) : Except Fault Bytes :=
  if i < array.length then .ok (array.set i value) else .error (.outOfBounds i)

theorem readSpan_of_le {buffer : Bytes} {i n : Nat} (h : i + n ≤ buffer.length) :
    readSpan buffer i n = .ok ⟨slice buffer i n, length_slice_of_le h⟩ := dif_pos h

/-- All of a span. -/
theorem readSpan_all {buffer : Bytes} {n : Nat} (h : buffer.length = n) :
    readSpan buffer 0 n = .ok ⟨buffer, h⟩ := by
  have hslice : slice buffer 0 n = buffer := List.take_of_length_le h.le
  rw [readSpan_of_le (by omega)]
  exact congrArg Except.ok (Subtype.ext hslice)

/-- The first bytes of an array. -/
theorem readSpan_front {n : Nat} (array : ByteArrayN n) {k : Nat} (h : k ≤ n) :
    readSpan array.val 0 k = .ok (ByteArrayN.copy k (array.val.take k)) := by
  have hlen : (array.val.take k).length = k := by
    rw [List.length_take, array.property, Nat.min_eq_left h]
  rw [readSpan_of_le (by rw [array.property]; omega)]
  exact congrArg Except.ok (Subtype.ext (ByteArrayN.copy_of_length hlen).symm)

theorem readRest_of_le {buffer : Bytes} {i : Nat} (h : i ≤ buffer.length) :
    readRest buffer i =
      .ok ⟨buffer.drop i, by rw [List.length_drop, Nat.add_sub_cancel' h]⟩ := dif_pos h

theorem writeByte_of_lt {array : Bytes} {i : Nat} (h : i < array.length) (value : UInt8) :
    writeByte array i value = .ok (array.set i value) := if_pos h

/-- A write of one byte is an overlay. -/
theorem set_eq_overlay {array : Bytes} {i : Nat} (h : i < array.length) (value : UInt8) :
    array.set i value = overlay array i [value] := by
  have htake : [value].take (array.length - i) = [value] :=
    List.take_of_length_le (by rw [List.length_singleton]; omega)
  rw [List.set_eq_take_append_cons_drop, if_pos h, overlay, htake, List.append_assoc]
  rfl

@[simp] theorem readByte_zero (b : UInt8) (bs : Bytes) : readByte (b :: bs) 0 = .ok b := rfl

@[simp] theorem readByte_one (b0 b1 : UInt8) (bs : Bytes) :
    readByte (b0 :: b1 :: bs) 1 = .ok b1 := rfl

@[simp] theorem readByte_two (b0 b1 b2 : UInt8) (bs : Bytes) :
    readByte (b0 :: b1 :: b2 :: bs) 2 = .ok b2 := rfl

@[simp] theorem readByte_three (b0 b1 b2 b3 : UInt8) (bs : Bytes) :
    readByte (b0 :: b1 :: b2 :: b3 :: bs) 3 = .ok b3 := rfl

@[simp] theorem readBe16At_zero (b0 b1 : UInt8) (bs : Bytes) :
    readBe16At (b0 :: b1 :: bs) 0 = .ok (readBe16 b0 b1) := rfl

@[simp] theorem readBe16At_two (b0 b1 b2 b3 : UInt8) (bs : Bytes) :
    readBe16At (b0 :: b1 :: b2 :: b3 :: bs) 2 = .ok (readBe16 b2 b3) := rfl

@[simp] theorem readBe32At_zero (b0 b1 b2 b3 : UInt8) (bs : Bytes) :
    readBe32At (b0 :: b1 :: b2 :: b3 :: bs) 0 = .ok (readBe32 b0 b1 b2 b3) := rfl

@[simp] theorem pure_eq_ok {α : Type} (a : α) : (pure a : Except Fault α) = .ok a := rfl

/-! ## The concept -/

/-- A class whose `decode` reads by index. -/
class CheckedDecode (α : Type) [StunAttribute α] where
  read : TransactionId → Bytes → Except Fault (Option α)
  read_eq : ∀ tid buffer, read tid buffer = .ok (StunAttribute.decode tid buffer)

/-! ## Values of one field -/

namespace StringAttrT

variable {T : StunAttrType} {maxBytes : Nat}

def read (buffer : Bytes) : Except Fault (Option (StringAttrT T maxBytes)) :=
  if maxBytes < buffer.length then return none
  else do
    let value ← readSpan buffer 0 buffer.length
    return some ⟨value.val⟩

theorem read_eq (buffer : Bytes) :
    (read buffer : Except Fault (Option (StringAttrT T maxBytes))) = .ok (decode buffer) := by
  unfold read decode
  split
  · rfl
  · rw [readSpan_all rfl]
    rfl

instance : CheckedDecode (StringAttrT T maxBytes) := ⟨fun _ => read, fun _ => read_eq⟩

end StringAttrT

namespace DataAttr

def read (buffer : Bytes) : Except Fault (Option DataAttr) :=
  if buffer.isEmpty then return some {}
  else do
    let data ← readSpan buffer 0 buffer.length
    return some ⟨data.val⟩

theorem read_eq (buffer : Bytes) : read buffer = .ok (decode buffer) := by
  unfold read decode
  split
  · next h => rw [List.isEmpty_iff.1 h]; rfl
  · rw [readSpan_all rfl]
    rfl

instance : CheckedDecode DataAttr := ⟨fun _ => read, fun _ => read_eq⟩

end DataAttr

namespace MarkerAttrT

variable {T : StunAttrType}

def read (buffer : Bytes) : Except Fault (Option (MarkerAttrT T)) :=
  if !buffer.isEmpty then return none else return some {}

theorem read_eq (buffer : Bytes) :
    (read buffer : Except Fault (Option (MarkerAttrT T))) = .ok (decode buffer) := by
  cases buffer <;> rfl

instance : CheckedDecode (MarkerAttrT T) := ⟨fun _ => read, fun _ => read_eq⟩

end MarkerAttrT

namespace ReservationTokenAttr

def read (buffer : Bytes) : Except Fault (Option ReservationTokenAttr) :=
  if buffer.length ≠ valueSize then return none
  else do
    let token ← readSpan buffer 0 valueSize
    return some ⟨token⟩

theorem read_eq (buffer : Bytes) : read buffer = .ok (decode buffer) := by
  unfold read decode
  by_cases h : buffer.length = valueSize
  · rw [if_neg (not_not.2 h), dif_pos h, readSpan_all h]
    rfl
  · rw [if_pos h, dif_neg h]
    rfl

instance : CheckedDecode ReservationTokenAttr := ⟨fun _ => read, fun _ => read_eq⟩

end ReservationTokenAttr

namespace UserHashAttr

def read (buffer : Bytes) : Except Fault (Option UserHashAttr) :=
  if buffer.length ≠ hashSize.toNat then return none
  else do
    let hash ← readSpan buffer 0 hashSize.toNat
    return some ⟨hash⟩

theorem read_eq (buffer : Bytes) : read buffer = .ok (decode buffer) := by
  unfold read decode
  by_cases h : buffer.length = hashSize.toNat
  · rw [if_neg (not_not.2 h), dif_pos h, readSpan_all h]
    rfl
  · rw [if_pos h, dif_neg h]
    rfl

instance : CheckedDecode UserHashAttr := ⟨fun _ => read, fun _ => read_eq⟩

end UserHashAttr

namespace MessageIntegrityAttrT

variable {T : StunAttrType}

def read (buffer : Bytes) : Except Fault (Option (MessageIntegrityAttrT T)) :=
  if buffer.length ≠ expectedSize T then return none
  else do
    let hmac ← readSpan buffer 0 buffer.length
    return some (ofHmac hmac.val)

theorem read_eq (buffer : Bytes) :
    (read buffer : Except Fault (Option (MessageIntegrityAttrT T))) = .ok (decode buffer) := by
  unfold read decode
  split
  · rfl
  · rw [readSpan_all rfl]
    rfl

instance : CheckedDecode (MessageIntegrityAttrT T) := ⟨fun _ => read, fun _ => read_eq⟩

end MessageIntegrityAttrT

namespace IceControlAttrT

variable {T : StunAttrType} [Platform]

def read (buffer : Bytes) : Except Fault (Option (IceControlAttrT T)) :=
  if buffer.length ≠ valueSize then return none
  else do
    let net := UInt64.ofNat (load (← readSpan buffer 0 valueSize).val)
    return some ⟨be64ToHost net⟩

theorem read_eq (buffer : Bytes) :
    (read buffer : Except Fault (Option (IceControlAttrT T))) = .ok (decode buffer) := by
  unfold read decode
  split
  · rfl
  · next h =>
    rw [readSpan_all (not_not.1 h)]
    rfl

instance : CheckedDecode (IceControlAttrT T) := ⟨fun _ => read, fun _ => read_eq⟩

end IceControlAttrT

namespace FingerprintAttr

variable [Platform]

def read (buffer : Bytes) : Except Fault (Option FingerprintAttr) :=
  if buffer.length ≠ valueSize then return none
  else do
    let netValue := UInt32.ofNat (load (← readSpan buffer 0 valueSize).val)
    return some ⟨be32ToHost netValue⟩

theorem read_eq (buffer : Bytes) : read buffer = .ok (decode buffer) := by
  unfold read decode
  split
  · rfl
  · next h =>
    rw [readSpan_all (not_not.1 h)]
    rfl

instance : CheckedDecode FingerprintAttr := ⟨fun _ => read, fun _ => read_eq⟩

end FingerprintAttr

/-! ## Values of several fields -/

namespace NumericAttrT

variable {T : StunAttrType}

def read (buffer : Bytes) : Except Fault (Option (NumericAttrT T)) :=
  if buffer.length < 4 then return none
  else do
    let value ← readBe32At buffer 0
    return some ⟨value⟩

theorem read_eq (buffer : Bytes) :
    (read buffer : Except Fault (Option (NumericAttrT T))) = .ok (decode buffer) := by
  match buffer with
  | [] | [_] | [_, _] | [_, _, _] => rfl
  | b0 :: b1 :: b2 :: b3 :: rest => simp [read, decode]

instance : CheckedDecode (NumericAttrT T) := ⟨fun _ => read, fun _ => read_eq⟩

end NumericAttrT

namespace RequestedTransAttr

def read (buffer : Bytes) : Except Fault (Option RequestedTransAttr) :=
  if buffer.length ≠ valueSize then return none
  else do
    let protocol ← readByte buffer 0
    return some ⟨protocol⟩

theorem read_eq (buffer : Bytes) : read buffer = .ok (decode buffer) := by
  match buffer with
  | [] | [_] | [_, _] | [_, _, _] | [_, _, _, _] => rfl
  | b0 :: b1 :: b2 :: b3 :: b4 :: rest => simp [read, decode, valueSize]

instance : CheckedDecode RequestedTransAttr := ⟨fun _ => read, fun _ => read_eq⟩

end RequestedTransAttr

namespace EvenPortAttr

def read (buffer : Bytes) : Except Fault (Option EvenPortAttr) :=
  if buffer.length < valueSize then return none
  else do
    let flags ← readByte buffer 0
    return some ⟨flags &&& 0x80 != 0⟩

theorem read_eq (buffer : Bytes) : read buffer = .ok (decode buffer) := by
  cases buffer <;> simp [read, decode, valueSize]

instance : CheckedDecode EvenPortAttr := ⟨fun _ => read, fun _ => read_eq⟩

end EvenPortAttr

namespace ChannelNumberAttr

def read (buffer : Bytes) : Except Fault (Option ChannelNumberAttr) :=
  if buffer.length ≠ valueSize then return none
  else do
    let channel ← readBe16At buffer 0
    if channel < 0x4000 ∨ 0x7FFF < channel then return none
    let rffu ← readBe16At buffer 2
    if rffu ≠ 0 then return none
    return some ⟨channel⟩

theorem read_eq (buffer : Bytes) : read buffer = .ok (decode buffer) := by
  match buffer with
  | [] | [_] | [_, _] | [_, _, _] => rfl
  | [b0, b1, b2, b3] =>
    have hsize : ¬[b0, b1, b2, b3].length ≠ valueSize := not_not.2 rfl
    simp only [read, decode, readBe16At_zero, readBe16At_two, ok_bind, pure_eq_ok]
    rw [if_neg hsize]
    split
    · rfl
    · split <;> rfl
  | b0 :: b1 :: b2 :: b3 :: b4 :: rest => simp [read, decode, valueSize]

instance : CheckedDecode ChannelNumberAttr := ⟨fun _ => read, fun _ => read_eq⟩

end ChannelNumberAttr

namespace AddressFamilyAttrT

variable {T : StunAttrType}

def read (buffer : Bytes) : Except Fault (Option (AddressFamilyAttrT T)) :=
  if buffer.length ≠ valueSize then return none
  else do
    -- the operands of `||` are read one after the other
    if (← readByte buffer 1) ≠ 0 then return none
    if (← readByte buffer 2) ≠ 0 then return none
    if (← readByte buffer 3) ≠ 0 then return none
    let family ← readByte buffer 0
    return some ⟨⟨family⟩⟩

theorem read_eq (buffer : Bytes) :
    (read buffer : Except Fault (Option (AddressFamilyAttrT T))) = .ok (decode buffer) := by
  match buffer with
  | [] | [_] | [_, _] | [_, _, _] => rfl
  | [b0, b1, b2, b3] =>
    have hsize : ¬[b0, b1, b2, b3].length ≠ valueSize := not_not.2 rfl
    simp only [read, decode, readByte_zero, readByte_one, readByte_two, readByte_three, ok_bind,
      pure_eq_ok]
    rw [if_neg hsize]
    by_cases h1 : b1 = 0 <;> by_cases h2 : b2 = 0 <;> by_cases h3 : b3 = 0 <;> simp [h1, h2, h3]
  | b0 :: b1 :: b2 :: b3 :: b4 :: rest => simp [read, decode, valueSize]

instance : CheckedDecode (AddressFamilyAttrT T) := ⟨fun _ => read, fun _ => read_eq⟩

end AddressFamilyAttrT

/-- The reason phrase of the two error classes. -/
def readReason (buffer : Bytes) : Except Fault Bytes :=
  if 4 < buffer.length then do
    let size ← subSize buffer.length 4
    let reason ← readSpan buffer 4 size
    return reason.val
  else return []

theorem readReason_eq (b0 b1 b2 b3 : UInt8) (reason : Bytes) :
    readReason (b0 :: b1 :: b2 :: b3 :: reason) = .ok reason := by
  unfold readReason
  have hlen : (b0 :: b1 :: b2 :: b3 :: reason).length = reason.length + 4 := rfl
  split
  · rw [subSize_of_le (by omega), ok_bind, readSpan_of_le (by omega)]
    have hslice : slice (b0 :: b1 :: b2 :: b3 :: reason) 4
        ((b0 :: b1 :: b2 :: b3 :: reason).length - 4) = reason :=
      List.take_of_length_le (by rw [hlen]; exact Nat.le_refl _)
    exact congrArg Except.ok hslice
  · rw [List.eq_nil_of_length_eq_zero (l := reason) (by omega)]
    rfl

namespace ErrorCodeAttr

def read (buffer : Bytes) : Except Fault (Option ErrorCodeAttr) :=
  if buffer.length < 4 then return none
  else do
    let cls := (← readByte buffer 2) &&& 0x07
    let num ← readByte buffer 3
    if cls < 3 ∨ 6 < cls then return none
    if 99 < num then return none
    let code := cls.toUInt16 * 100 + num.toUInt16
    let reason ← readReason buffer
    return some ⟨code, reason⟩

theorem read_eq (buffer : Bytes) : read buffer = .ok (decode buffer) := by
  match buffer with
  | [] | [_] | [_, _] | [_, _, _] => rfl
  | b0 :: b1 :: b2 :: num :: reason =>
    simp only [read, decode, readByte_two, readByte_three, ok_bind, pure_eq_ok, readReason_eq]
    rw [if_neg (by simp)]
    split
    · rfl
    · split <;> rfl

instance : CheckedDecode ErrorCodeAttr := ⟨fun _ => read, fun _ => read_eq⟩

end ErrorCodeAttr

namespace AddressErrorCodeAttr

def read (buffer : Bytes) : Except Fault (Option AddressErrorCodeAttr) :=
  if buffer.length < 4 then return none
  else do
    let fam : AddressFamily := ⟨← readByte buffer 0⟩
    if fam ≠ .ipv4 ∧ fam ≠ .ipv6 then return none
    let cls := ((← readByte buffer 2) &&& 0xE0) >>> 5
    let num ← readByte buffer 3
    if cls < 3 ∨ 6 < cls then return none
    if 99 < num then return none
    let code := cls.toUInt16 * 100 + num.toUInt16
    if code ≠ 440 ∧ code ≠ 508 then return none
    let reason ← readReason buffer
    return some ⟨fam, code, reason⟩

theorem read_eq (buffer : Bytes) : read buffer = .ok (decode buffer) := by
  match buffer with
  | [] | [_] | [_, _] | [_, _, _] => rfl
  | b0 :: b1 :: b2 :: num :: reason =>
    simp only [read, decode, readByte_zero, readByte_two, readByte_three, ok_bind, pure_eq_ok,
      readReason_eq]
    rw [if_neg (by simp)]
    split
    · rfl
    · split
      · rfl
      · split
        · rfl
        · split <;> rfl

instance : CheckedDecode AddressErrorCodeAttr := ⟨fun _ => read, fun _ => read_eq⟩

end AddressErrorCodeAttr

/-! ## Values read by a loop -/

namespace UnknownAttributesAttr

/-- The loop of `decode`, from index `i` on, with the types so far. -/
def readLoop (buffer : Bytes) (i : Nat) (types : List UInt16) : Except Fault (List UInt16) :=
  if i < buffer.length then do
    let type ← readBe16At buffer i
    readLoop buffer (i + 2) (types ++ [type])
  else return types
termination_by buffer.length - i

def read (buffer : Bytes) : Except Fault (Option UnknownAttributesAttr) :=
  if buffer.length % 2 ≠ 0 then return none
  else do
    let types ← readLoop buffer 0 []
    return some ⟨types⟩

/-- The bytes from an even index on go in pairs, so the last read of a pair is in the span. -/
theorem readLoop_append (front rest : Bytes) (types : List UInt16) (heven : rest.length % 2 = 0) :
    readLoop (front ++ rest) front.length types = .ok (types ++ readTypes rest) := by
  fun_induction readTypes rest generalizing front types with
  | case1 b0 b1 rest ih =>
    have h0 : (front ++ b0 :: b1 :: rest)[front.length]? = some b0 := by simp
    have h1 : (front ++ b0 :: b1 :: rest)[front.length + 1]? = some b1 := by simp
    have hstep := ih (front ++ [b0, b1]) (types ++ [readBe16 b0 b1]) (by simp at heven; omega)
    rw [List.append_assoc, List.length_append] at hstep
    rw [readLoop, if_pos (by simp), readBe16At_of_some h0 h1, ok_bind]
    simpa using hstep
  | case2 rest hshort =>
    have hnil : rest = [] := by
      cases rest with
      | nil => rfl
      | cons b0 rest =>
        cases rest with
        | nil => cases heven
        | cons b1 rest => exact absurd rfl (hshort b0 b1 rest)
    rw [readLoop, if_neg (by simp [hnil]), List.append_nil]
    rfl

theorem read_eq (buffer : Bytes) : read buffer = .ok (decode buffer) := by
  unfold read decode
  split
  · rfl
  · next heven =>
    have hloop := readLoop_append [] buffer [] (not_not.1 heven)
    rw [List.nil_append, List.length_nil, List.nil_append] at hloop
    rw [hloop]
    rfl

instance : CheckedDecode UnknownAttributesAttr := ⟨fun _ => read, fun _ => read_eq⟩

end UnknownAttributesAttr

namespace PasswordAlgorithmAttr

def read (buffer : Bytes) : Except Fault (Option PasswordAlgorithmAttr) :=
  if buffer.length < 4 then return none
  else do
    let algorithm ← readBe16At buffer 0
    let paramLen ← readBe16At buffer 2
    if buffer.length < 4 + roundUp4 paramLen.toNat then return none
    let parameters ← readSpan buffer 4 paramLen.toNat
    return some ⟨⟨⟨algorithm⟩, parameters.val⟩⟩

theorem read_eq (buffer : Bytes) : read buffer = .ok (decode buffer) := by
  match buffer with
  | [] | [_] | [_, _] | [_, _, _] => rfl
  | b0 :: b1 :: b2 :: b3 :: rest =>
    simp only [read, decode, readBe16At_zero, readBe16At_two, ok_bind, pure_eq_ok]
    rw [if_neg (by simp)]
    have hlen : (b0 :: b1 :: b2 :: b3 :: rest).length = 4 + rest.length := Nat.add_comm _ 4
    have hpad := le_roundUp4 (readBe16 b2 b3).toNat
    by_cases hroom : rest.length < roundUp4 (readBe16 b2 b3).toNat
    · rw [if_pos (by omega), if_pos hroom]
    · rw [if_neg (by omega), if_neg hroom, readSpan_of_le (by omega)]
      rfl

instance : CheckedDecode PasswordAlgorithmAttr := ⟨fun _ => read, fun _ => read_eq⟩

end PasswordAlgorithmAttr

namespace PasswordAlgorithmsAttr

/-- The loop of `decode`: the entries so far and the span that is left. -/
def readLoop (entries : List PasswordAlgorithmEntry) (buffer : Bytes) :
    Except Fault (Option (List PasswordAlgorithmEntry)) :=
  if _h : 4 ≤ buffer.length then do
    let algorithm ← readBe16At buffer 0
    let paramLen ← readBe16At buffer 2
    let ⟨params, _⟩ ← readRest buffer 4
    if params.length < roundUp4 paramLen.toNat then return none
    let parameters ← readSpan params 0 paramLen.toNat
    let ⟨rest, _⟩ ← readRest params (roundUp4 paramLen.toNat)
    readLoop (entries ++ [⟨⟨algorithm⟩, parameters.val⟩]) rest
  else return some entries
termination_by buffer.length
decreasing_by omega

def read (buffer : Bytes) : Except Fault (Option PasswordAlgorithmsAttr) := do
  let entries ← readLoop [] buffer
  return entries.map PasswordAlgorithmsAttr.mk

theorem readLoop_eq (entries : List PasswordAlgorithmEntry) (buffer : Bytes) :
    readLoop entries buffer = .ok (decodeLoop entries buffer) := by
  fun_induction decodeLoop entries buffer with
  | case1 entries b0 b1 b2 b3 rest paramLen hshort =>
    rw [readLoop, dif_pos (by simp), readBe16At_zero, ok_bind, readBe16At_two, ok_bind,
      readRest_of_le (by simp), ok_bind]
    exact if_pos hshort
  | case2 entries b0 b1 b2 b3 rest paramLen hroom ih =>
    have hpad := le_roundUp4 paramLen
    have hparams : readSpan rest 0 paramLen = .ok ⟨slice rest 0 paramLen, _⟩ :=
      readSpan_of_le (by omega)
    have hrest : readRest rest (roundUp4 paramLen) = .ok ⟨rest.drop (roundUp4 paramLen), _⟩ :=
      readRest_of_le (by omega)
    rw [readLoop, dif_pos (by simp), readBe16At_zero, ok_bind, readBe16At_two, ok_bind,
      readRest_of_le (by simp), ok_bind]
    show (if rest.length < roundUp4 paramLen then _ else _) = _
    rw [if_neg hroom]
    show (readSpan rest 0 paramLen >>= _) = _
    rw [hparams, ok_bind]
    show (readRest rest (roundUp4 paramLen) >>= _) = _
    rw [hrest]
    exact ih
  | case3 entries buffer hrest =>
    rw [readLoop, dif_neg]
    · rfl
    · intro hfour
      obtain ⟨b0, b1, b2, b3, rest, heq⟩ := exists_four hfour
      exact hrest b0 b1 b2 b3 rest heq

theorem read_eq (buffer : Bytes) : read buffer = .ok (decode buffer) := by
  rw [read, readLoop_eq]
  rfl

instance : CheckedDecode PasswordAlgorithmsAttr := ⟨fun _ => read, fun _ => read_eq⟩

end PasswordAlgorithmsAttr

namespace XorAddressAttrT

variable {T : StunAttrType}

/-- `xor_byte` for the address byte `i`. -/
def readMask (tid : TransactionId) (i : Nat) : Except Fault UInt8 :=
  if i < 4 then return ((magicCookie >>> (24 - 8 * UInt32.ofNat i)) &&& 0xFF).toUInt8
  else readByte tid.val (i - 4)

/-- The loop of `decode`, from index `i` on, with the array so far. -/
def readLoop (tid : TransactionId) (buffer : Bytes) (addrLen i : Nat) (decoded : Bytes) :
    Except Fault Bytes :=
  if i < addrLen then do
    let mask ← readMask tid i
    let b ← readByte buffer (4 + i)
    let decoded ← writeByte decoded i (b ^^^ mask)
    readLoop tid buffer addrLen (i + 1) decoded
  else return decoded
termination_by addrLen - i

def read (tid : TransactionId) (buffer : Bytes) : Except Fault (Option (XorAddressAttrT T)) :=
  if buffer.length < 4 then return none
  else do
    let family : AddressFamily := ⟨← readByte buffer 1⟩
    let addrLen := if family = .ipv4 then 4 else 16
    if buffer.length < 4 + addrLen then return none
    let port := (← readBe16At buffer 2) ^^^ portMask
    let decoded ← readLoop tid buffer addrLen 0 (ByteArrayN.zero 16).val
    let addr ←
      if family = .ipv4 then
        pure (StunAddress.ipv4 port (← readSpan decoded 0 4))
      else
        pure (StunAddress.ipv6 port (← readSpan decoded 0 16))
    return some (ofAddress tid addr)

theorem readMask_eq (tid : TransactionId) {i : Nat} (h : i < 16) :
    readMask tid i = .ok (xorByte tid i) := by
  unfold readMask xorByte
  split
  · rfl
  · have hlt : i - 4 < tid.val.length := by
      have htid : tid.val.length = 12 := tid.property
      omega
    rw [readByte_of_some (List.getElem?_eq_getElem hlt), List.getD_eq_getElem _ _ hlt]

/-- The loop masks the address bytes into the array. -/
theorem readLoop_eq (tid : TransactionId) (buffer : Bytes) {addrLen i : Nat} (decoded : Bytes)
    (hbuffer : 4 + addrLen ≤ buffer.length) (hsize : decoded.length = 16) (hlen : addrLen ≤ 16)
    (hi : i ≤ addrLen) :
    readLoop tid buffer addrLen i decoded =
      .ok (overlay decoded i (xorBytes tid i (slice buffer (4 + i) (addrLen - i)))) := by
  induction hn : addrLen - i generalizing i decoded with
  | zero =>
    rw [readLoop, if_neg (by omega)]
    show _ = Except.ok (overlay decoded i [])
    rw [overlay_nil]
    rfl
  | succ n ih =>
    have hlt : 4 + i < buffer.length := by omega
    have hslice : slice buffer (4 + i) (n + 1) =
        buffer[4 + i] :: slice buffer (4 + (i + 1)) n := by
      rw [slice, List.drop_eq_getElem_cons hlt, List.take_succ_cons]
      rfl
    rw [readLoop, if_pos (by omega), readMask_eq tid (by omega), ok_bind,
      readByte_of_some (List.getElem?_eq_getElem hlt), ok_bind, writeByte_of_lt (by omega), ok_bind,
      ih _ (by rwa [List.length_set]) (by omega) (by omega), hslice, xorBytes,
      set_eq_overlay (by omega)]
    exact congrArg Except.ok (overlay_append decoded i [_] _).symm

theorem read_eq (tid : TransactionId) (buffer : Bytes) :
    (read tid buffer : Except Fault (Option (XorAddressAttrT T))) = .ok (decode tid buffer) := by
  match buffer with
  | [] | [_] | [_, _] | [_, _, _] => rfl
  | b0 :: b1 :: b2 :: b3 :: rest =>
    have hlen : (b0 :: b1 :: b2 :: b3 :: rest).length = 4 + rest.length := Nat.add_comm _ 4
    simp only [read, decode, readByte_one, readBe16At_two, ok_bind, pure_eq_ok]
    rw [if_neg (by simp)]
    generalize haddr : (if (⟨b1⟩ : AddressFamily) = .ipv4 then 4 else 16) = addrLen
    by_cases hroom : rest.length < addrLen
    · rw [if_pos (by omega), if_pos hroom]
    · have hle : addrLen ≤ 16 := by rw [← haddr]; split <;> omega
      rw [if_neg (by omega), if_neg hroom, readLoop_eq tid _ _ (by omega)
        (ByteArrayN.zero 16).property hle (Nat.zero_le _), ok_bind]
      let decoded := ByteArrayN.copy 16 (xorBytes tid 0 (rest.take addrLen))
      by_cases hfam : (⟨b1⟩ : AddressFamily) = .ipv4
      · simp only [if_pos hfam]
        show (readSpan decoded.val 0 4 >>= _) = _
        rw [readSpan_front decoded (by omega)]
        rfl
      · simp only [if_neg hfam]
        show (readSpan decoded.val 0 16 >>= _) = _
        rw [readSpan_all decoded.property]
        rfl

instance : CheckedDecode (XorAddressAttrT T) := ⟨read, read_eq⟩

end XorAddressAttrT

instance [Platform] : (c : AttrClass) → CheckedDecode c.Obj
  | .username => inferInstanceAs (CheckedDecode UsernameAttr)
  | .realm => inferInstanceAs (CheckedDecode RealmAttr)
  | .nonce => inferInstanceAs (CheckedDecode NonceAttr)
  | .software => inferInstanceAs (CheckedDecode SoftwareAttr)
  | .alternateDomain => inferInstanceAs (CheckedDecode AlternateDomainAttr)
  | .xorMappedAddr => inferInstanceAs (CheckedDecode XorMappedAddrAttr)
  | .xorPeerAddr => inferInstanceAs (CheckedDecode XorPeerAddrAttr)
  | .xorRelayedAddr => inferInstanceAs (CheckedDecode XorRelayedAddrAttr)
  | .alternateServer => inferInstanceAs (CheckedDecode AlternateServerAttr)
  | .priority => inferInstanceAs (CheckedDecode PriorityAttr)
  | .requestedTrans => inferInstanceAs (CheckedDecode RequestedTransAttr)
  | .lifetime => inferInstanceAs (CheckedDecode LifetimeAttr)
  | .evenPort => inferInstanceAs (CheckedDecode EvenPortAttr)
  | .connectionId => inferInstanceAs (CheckedDecode ConnectionIdAttr)
  | .errorCode => inferInstanceAs (CheckedDecode ErrorCodeAttr)
  | .useCandidate => inferInstanceAs (CheckedDecode UseCandidateAttr)
  | .dontFragment => inferInstanceAs (CheckedDecode DontFragmentAttr)
  | .unknownAttributes => inferInstanceAs (CheckedDecode UnknownAttributesAttr)
  | .reservationToken => inferInstanceAs (CheckedDecode ReservationTokenAttr)
  | .data => inferInstanceAs (CheckedDecode DataAttr)
  | .iceControlled => inferInstanceAs (CheckedDecode IceControlledAttr)
  | .iceControlling => inferInstanceAs (CheckedDecode IceControllingAttr)
  | .requestedAddressFamily => inferInstanceAs (CheckedDecode RequestedAddressFamilyAttr)
  | .additionalAddressFamily => inferInstanceAs (CheckedDecode AdditionalAddressFamilyAttr)
  | .channelNumber => inferInstanceAs (CheckedDecode ChannelNumberAttr)
  | .addressErrorCode => inferInstanceAs (CheckedDecode AddressErrorCodeAttr)
  | .userHash => inferInstanceAs (CheckedDecode UserHashAttr)
  | .passwordAlgorithm => inferInstanceAs (CheckedDecode PasswordAlgorithmAttr)
  | .passwordAlgorithms => inferInstanceAs (CheckedDecode PasswordAlgorithmsAttr)
  | .messageIntegritySHA1 => inferInstanceAs (CheckedDecode MessageIntegritySHA1Attr)
  | .messageIntegritySHA256 => inferInstanceAs (CheckedDecode MessageIntegritySHA256Attr)
  | .fingerprint => inferInstanceAs (CheckedDecode FingerprintAttr)

/-! ## ChannelData -/

namespace ChannelData

/-- `decode`, checked. -/
def read (buffer : Bytes) : Except Fault (Option ChannelData) :=
  if buffer.length < chanHeaderSize then return none
  else do
    let channel ← readBe16At buffer 0
    if !isValidChannel channel then return none
    let length ← readBe16At buffer 2
    if buffer.length < chanHeaderSize + length.toNat then return none
    let payload ← readSpan buffer chanHeaderSize length.toNat
    return some ⟨channel, payload.val⟩

/-- `isChannelData`, checked. -/
def readIsChannelData (buffer : Bytes) : Except Fault Bool :=
  if buffer.length < 2 then return false
  else do
    let channel ← readBe16At buffer 0
    return isValidChannel channel

theorem read_eq (buffer : Bytes) : read buffer = .ok (decode buffer) := by
  match buffer with
  | [] | [_] | [_, _] | [_, _, _] => rfl
  | b0 :: b1 :: b2 :: b3 :: rest =>
    simp only [read, decode, readBe16At_zero, readBe16At_two, ok_bind, pure_eq_ok]
    rw [if_neg (by simp [chanHeaderSize])]
    split
    · rfl
    · split
      · rfl
      · next hroom =>
        rw [readSpan_of_le (Nat.le_of_not_lt hroom)]
        rfl

theorem readIsChannelData_eq (buffer : Bytes) :
    readIsChannelData buffer = .ok (isChannelData buffer) := by
  match buffer with
  | [] | [_] => rfl
  | b0 :: b1 :: rest => simp [readIsChannelData, isChannelData]

end ChannelData

/-! ## The typed lookups -/

namespace Decoder

section Lookup

variable (α : Type) [StunAttribute α] [CheckedDecode α]

/-- `getAttribute<AttrType>()`, checked. -/
def readAttribute (d : Decoder) : Except Fault (Option α) :=
  if d.buffer.isEmpty then return none
  else
    match d.attributes.get (StunAttribute.type α).code with
    | none => return none
    | some header =>
      if d.buffer.length < header.offset + header.len.toNat then return none
      else do
        let value ← readSpan d.buffer header.offset header.len.toNat
        CheckedDecode.read d.transactionId value.val

/-- The loop of `getAttributes`, checked. -/
def readAttributesLoop (d : Decoder) (result : List α) : List AttrHeader → Except Fault (List α)
  | [] => return result
  | header :: headers =>
    if d.buffer.length < header.offset + header.len.toNat then return result
    else do
      let value ← readSpan d.buffer header.offset header.len.toNat
      let decoded : Option α ← CheckedDecode.read d.transactionId value.val
      match decoded with
      | some decoded => readAttributesLoop d (result ++ [decoded]) headers
      | none => readAttributesLoop d result headers

/-- `getAttributes<AttrType>()`, checked. -/
def readAttributes (d : Decoder) : Except Fault (List α) :=
  if d.buffer.isEmpty then return []
  else d.readAttributesLoop α [] (d.attributes.range (StunAttribute.type α).code)

theorem readAttribute_eq (d : Decoder) : d.readAttribute α = .ok (d.getAttribute α) := by
  unfold readAttribute getAttribute
  split
  · rfl
  · cases d.attributes.get (StunAttribute.type α).code with
    | none => rfl
    | some header =>
      by_cases hroom : d.buffer.length < header.offset + header.len.toNat
      · simp only [if_pos hroom, pure_eq_ok]
      · simp only [if_neg hroom]
        rw [readSpan_of_le (Nat.le_of_not_lt hroom), ok_bind, CheckedDecode.read_eq]

theorem readAttributesLoop_eq (d : Decoder) (result : List α) (headers : List AttrHeader) :
    d.readAttributesLoop α result headers = .ok (d.getAttributesLoop α result headers) := by
  induction headers generalizing result with
  | nil => rfl
  | cons header headers ih =>
    rw [readAttributesLoop, getAttributesLoop]
    by_cases hroom : d.buffer.length < header.offset + header.len.toNat
    · rw [if_pos hroom, if_pos hroom]
      rfl
    · rw [if_neg hroom, if_neg hroom, readSpan_of_le (Nat.le_of_not_lt hroom), ok_bind,
        CheckedDecode.read_eq, ok_bind]
      cases (StunAttribute.decode d.transactionId
          (slice d.buffer header.offset header.len.toNat) : Option α) with
      | none => exact ih result
      | some decoded => exact ih (result ++ [decoded])

theorem readAttributes_eq (d : Decoder) : d.readAttributes α = .ok (d.getAttributes α) := by
  unfold readAttributes getAttributes
  split
  · rfl
  · exact d.readAttributesLoop_eq α [] _

end Lookup

/-- `parseHeader` never faults. -/
theorem parseHeader_total (buffer : Bytes) : ∃ header, parseHeader buffer = .ok header := by
  by_cases hlen : buffer.length < 20
  · exact ⟨none, if_pos hlen⟩
  · obtain ⟨h, htake⟩ := StunHeader.exists_wire (Nat.not_lt.1 hlen)
    obtain ⟨htype, hlength, hcookie, htid⟩ := reads_of_take htake
    have hparse : parseHeader buffer =
        if h.magicCookie ≠ magicCookie then .ok none else .ok (some h) := by
      rw [parseHeader, stunHeaderSize, if_neg hlen, htype, hlength, hcookie, htid]
      rfl
    by_cases hg : h.magicCookie = magicCookie
    · exact ⟨some h, hparse.trans (if_neg (not_not.2 hg))⟩
    · exact ⟨none, hparse.trans (if_pos hg)⟩

/-- **Receiving never reads astray**: in any state of a decoder, on any buffer, `decode`,
`parseHeader`, the ChannelData functions and every lookup of every class stay inside the buffer and
inside the values they are given, and find what the functions without checks find. -/
theorem receive_checked [Platform] (d : Decoder) :
    (∃ ok e, d.decode = .ok (ok, e)) ∧ (∃ header, parseHeader d.buffer = .ok header) ∧
      ChannelData.read d.buffer = .ok (ChannelData.decode d.buffer) ∧
      ChannelData.readIsChannelData d.buffer = .ok (ChannelData.isChannelData d.buffer) ∧
      ∀ c : AttrClass, d.readAttribute c.Obj = .ok (d.getAttribute c.Obj) ∧
        d.readAttributes c.Obj = .ok (d.getAttributes c.Obj) :=
  ⟨d.decode_total, parseHeader_total d.buffer, ChannelData.read_eq d.buffer,
    ChannelData.readIsChannelData_eq d.buffer,
    fun c => ⟨d.readAttribute_eq c.Obj, d.readAttributes_eq c.Obj⟩⟩

end Decoder

end Stunxx
