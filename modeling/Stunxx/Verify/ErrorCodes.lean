import Stunxx.Attributes.Text
import Stunxx.Verify.EncoderStep

/-!
# Where an error code keeps its class

ERROR-CODE keeps the class of a code in the low three bits of the third byte of its value,
ADDRESS-ERROR-CODE in the top three. Each class reads what it writes itself, but neither of the two
codes of ADDRESS-ERROR-CODE looks the same in both, and a value is read alike only if its third byte
holds the class twice.
-/

namespace Stunxx

/-! ## Classes and numbers -/

/-- A code has one class and one number. -/
theorem errorCode_inj {cls cls' num num' : UInt8} (hnum : ¬99 < num) (hnum' : ¬99 < num')
    (h : cls.toUInt16 * 100 + num.toUInt16 = cls'.toUInt16 * 100 + num'.toUInt16) :
    cls = cls' ∧ num = num' := by
  have hnat := congrArg UInt16.toNat h
  rw [toNat_errorCode, toNat_errorCode] at hnat
  have hle : num.toNat ≤ 99 := UInt8.not_lt.1 hnum
  have hle' : num'.toNat ≤ 99 := UInt8.not_lt.1 hnum'
  constructor
  · apply UInt8.toNat_inj.1
    omega
  · apply UInt8.toNat_inj.1
    omega

theorem and_shift_class (b : UInt8) : (b &&& 0xE0) >>> 5 = b >>> 5 := by
  apply UInt8.toBitVec_inj.1
  ext i hi
  interval_cases i <;> simp

/-- The class and the number of one of the two codes of ADDRESS-ERROR-CODE. -/
def IsAddressError (cls num : UInt8) : Prop := cls = 4 ∧ num = 40 ∨ cls = 5 ∧ num = 8

theorem isAddressError_iff {cls num : UInt8} (hnum : ¬99 < num) :
    IsAddressError cls num ↔ cls.toUInt16 * 100 + num.toUInt16 = 440 ∨
      cls.toUInt16 * 100 + num.toUInt16 = 508 := by
  have h440 : (440 : UInt16) = (4 : UInt8).toUInt16 * 100 + (40 : UInt8).toUInt16 := rfl
  have h508 : (508 : UInt16) = (5 : UInt8).toUInt16 * 100 + (8 : UInt8).toUInt16 := rfl
  constructor
  · rintro (⟨rfl, rfl⟩ | ⟨rfl, rfl⟩)
    · exact .inl h440.symm
    · exact .inr h508.symm
  · rw [h440, h508]
    rintro (h | h)
    · exact .inl (errorCode_inj hnum (by decide) h)
    · exact .inr (errorCode_inj hnum (by decide) h)

theorem IsAddressError.inRange {cls num : UInt8} (h : IsAddressError cls num) :
    ¬(cls < 3 ∨ 6 < cls) ∧ ¬99 < num := by
  rcases h with ⟨rfl, rfl⟩ | ⟨rfl, rfl⟩ <;> decide

/-! ## What the two classes read -/

section Read

variable {fam reserved b2 num : UInt8} {reason : Bytes}

theorem AddressErrorCodeAttr.decode_cons_eq_some_iff {a : AddressErrorCodeAttr} :
    decode (fam :: reserved :: b2 :: num :: reason) = some a ↔
      (fam = 1 ∨ fam = 2) ∧ IsAddressError (b2 >>> 5) num ∧
        a = ⟨⟨fam⟩, (b2 >>> 5).toUInt16 * 100 + num.toUInt16, reason⟩ := by
  have hfam : (⟨fam⟩ : AddressFamily) = .ipv4 ∨ (⟨fam⟩ : AddressFamily) = .ipv6 ↔
      fam = 1 ∨ fam = 2 := by
    simp [AddressFamily.ipv4, AddressFamily.ipv6]
  simp only [decode, and_shift_class, Option.ite_none_left_eq_some, Option.some.injEq]
  constructor
  · rintro ⟨hf, -, hnum, hcode, rfl⟩
    refine ⟨hfam.1 (by tauto), (isAddressError_iff hnum).2 (by tauto), rfl⟩
  · rintro ⟨hf, herr, rfl⟩
    obtain ⟨hcls, hnum⟩ := herr.inRange
    have hf := hfam.2 hf
    have hcode := (isAddressError_iff hnum).1 herr
    exact ⟨by tauto, hcls, hnum, by tauto, rfl⟩

theorem ErrorCodeAttr.decode_cons_eq_some_iff {b0 b1 : UInt8} {a : ErrorCodeAttr} :
    decode (b0 :: b1 :: b2 :: num :: reason) = some a ↔
      ¬(b2 &&& 0x07 < 3 ∨ 6 < b2 &&& 0x07) ∧ ¬99 < num ∧
        a = ⟨(b2 &&& 0x07).toUInt16 * 100 + num.toUInt16, reason⟩ := by
  simp only [decode, Option.ite_none_left_eq_some, Option.some.injEq]
  exact and_congr_right fun _ => and_congr_right fun _ => eq_comm

/-- ERROR-CODE reads a value that ADDRESS-ERROR-CODE accepts as that does exactly if its third byte
holds the class at both places. -/
theorem ErrorCodeAttr.agrees_iff {a : AddressErrorCodeAttr}
    (h : AddressErrorCodeAttr.decode (fam :: reserved :: b2 :: num :: reason) = some a) :
    ErrorCodeAttr.decode (fam :: reserved :: b2 :: num :: reason) =
        some ⟨a.errorCode, a.value⟩ ↔
      b2 >>> 5 = b2 &&& 0x07 := by
  obtain ⟨-, herr, rfl⟩ := AddressErrorCodeAttr.decode_cons_eq_some_iff.1 h
  obtain ⟨hcls, hnum⟩ := herr.inRange
  rw [decode_cons_eq_some_iff]
  constructor
  · rintro ⟨-, -, hread⟩
    obtain ⟨hcode, -⟩ := ErrorCodeAttr.mk.inj hread
    exact (errorCode_inj hnum hnum hcode).1
  · intro hsame
    rw [← hsame]
    exact ⟨hcls, hnum, rfl⟩

end Read

/-! ## Where the layouts part -/

/-- A value that ADDRESS-ERROR-CODE accepts, with another class where ERROR-CODE looks for it. -/
def ClassElsewhere (bs : Bytes) : Prop :=
  ∃ fam reserved b2 num reason, bs = fam :: reserved :: b2 :: num :: reason ∧
    (fam = 1 ∨ fam = 2) ∧ IsAddressError (b2 >>> 5) num ∧ b2 >>> 5 ≠ b2 &&& 0x07

theorem errorCode_agrees_iff (bs : Bytes) :
    (∀ a, AddressErrorCodeAttr.decode bs = some a →
      ErrorCodeAttr.decode bs = some ⟨a.errorCode, a.value⟩) ↔ ¬ClassElsewhere bs := by
  constructor
  · rintro h ⟨fam, reserved, b2, num, reason, rfl, hfam, herr, hne⟩
    have hread := @AddressErrorCodeAttr.decode_cons_eq_some_iff fam reserved b2 num reason
    have ha := hread.2 ⟨hfam, herr, rfl⟩
    exact hne ((ErrorCodeAttr.agrees_iff ha).1 (h _ ha))
  · intro hnot a ha
    have hlen := AddressErrorCodeAttr.length_of_decode ha
    rw [AddressErrorCodeAttr.length_wireValue] at hlen
    obtain ⟨fam, reserved, b2, num, reason, rfl⟩ := exists_four (Nat.le_of_add_right_le hlen)
    obtain ⟨hfam, herr, -⟩ := AddressErrorCodeAttr.decode_cons_eq_some_iff.1 ha
    apply (ErrorCodeAttr.agrees_iff ha).2
    by_contra hne
    exact hnot ⟨fam, reserved, b2, num, reason, rfl, hfam, herr, hne⟩

theorem AddressErrorCodeAttr.writes {a : AddressErrorCodeAttr} {xs : Bytes}
    (hreason : a.value.length ≤ 65531)
    (hroom : attrHeaderSize + roundUp4 (4 + a.value.length) ≤ xs.length) :
    (StunAttribute.encode a xs.length).1 = true ∧
      StunAttribute.writtenValue a xs = a.wireValue := by
  rw [← length_wireValue] at hroom
  exact Encoder.writes_of_room rfl (a.length_wireValue.trans_le (by omega)) hroom

theorem ErrorCodeAttr.writes {a : ErrorCodeAttr} {xs : Bytes} (hreason : a.value.length ≤ 65531)
    (hroom : attrHeaderSize + roundUp4 (4 + a.value.length) ≤ xs.length) :
    (StunAttribute.encode a xs.length).1 = true ∧
      StunAttribute.writtenValue a xs = a.wireValue := by
  rw [← length_wireValue] at hroom
  exact Encoder.writes_of_room rfl (a.length_wireValue.trans_le (by omega)) hroom

/-- The class byte of the two codes of ADDRESS-ERROR-CODE differs in the two layouts. -/
theorem errorClass_moved {code : UInt16} (hcode : code = 440 ∨ code = 508) :
    (errorClass code &&& 0x07) <<< 5 ≠ errorClass code &&& 0x07 := by
  rcases hcode with rfl | rfl <;> decide

/-- **Where the two layouts agree**: no code is written alike, and a value is read alike unless
ADDRESS-ERROR-CODE accepts it and its third byte holds another class in its low three bits. -/
theorem error_code_layouts (family : AddressFamily) (code : UInt16) (reason xs ys bs : Bytes) :
    (code = 440 ∨ code = 508 → reason.length ≤ 65531 →
      attrHeaderSize + roundUp4 (4 + reason.length) ≤ xs.length →
      attrHeaderSize + roundUp4 (4 + reason.length) ≤ ys.length →
      (StunAttribute.encode (⟨family, code, reason⟩ : AddressErrorCodeAttr) xs.length).1 = true ∧
      (StunAttribute.encode (⟨code, reason⟩ : ErrorCodeAttr) ys.length).1 = true ∧
      (StunAttribute.writtenValue (⟨family, code, reason⟩ : AddressErrorCodeAttr) xs).drop 2 ≠
        (StunAttribute.writtenValue (⟨code, reason⟩ : ErrorCodeAttr) ys).drop 2) ∧
    ((∀ a, AddressErrorCodeAttr.decode bs = some a →
      ErrorCodeAttr.decode bs = some ⟨a.errorCode, a.value⟩) ↔ ¬ClassElsewhere bs) := by
  refine ⟨?_, errorCode_agrees_iff bs⟩
  intro hcode hreason hxs hys
  obtain ⟨haddress, hvalue⟩ := AddressErrorCodeAttr.writes
    (a := ⟨family, code, reason⟩) hreason hxs
  obtain ⟨herror, hvalue'⟩ := ErrorCodeAttr.writes (a := ⟨code, reason⟩) hreason hys
  refine ⟨haddress, herror, ?_⟩
  rw [hvalue, hvalue']
  intro hsame
  exact errorClass_moved hcode (List.cons.inj hsame).1

/-- Code 440 is written as 01 00 80 28 and as 00 00 04 28, and the first of these is not read by
ERROR-CODE. -/
theorem address_error_unread :
    StunAttribute.writtenValue (⟨.ipv4, 440, []⟩ : AddressErrorCodeAttr) (List.replicate 8 0) =
      [0x01, 0x00, 0x80, 0x28] ∧
    StunAttribute.writtenValue (⟨440, []⟩ : ErrorCodeAttr) (List.replicate 8 0) =
      [0x00, 0x00, 0x04, 0x28] ∧
    AddressErrorCodeAttr.decode [0x01, 0x00, 0x80, 0x28] = some ⟨.ipv4, 440, []⟩ ∧
    ErrorCodeAttr.decode [0x01, 0x00, 0x80, 0x28] = none := by
  decide

end Stunxx
