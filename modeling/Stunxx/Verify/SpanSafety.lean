import Stunxx.Attributes.Registry

/-!
# Attribute encoders and the ends of their spans

An encoder that returns false stores nothing. One that returns true stays in its span, and in the
part of it that `length()` announces, exactly when `length()` is the size of the value: the string
classes and the two error codes check their span against a `length()` cut to 16 bits and copy the
whole value, and DATA fills a padding it does not announce.
-/

namespace Stunxx

open Overlay

/-- The stores reach index `i` of the span. -/
def WritesAt (stores : List Store) (i : Nat) : Prop :=
  ∃ s ∈ stores, s.dst ≤ i ∧ i < s.dst + s.items.length

/-- The stores of a call stay where they may: in the span, nowhere if the call returned false, and
in the `4 + roundUp4 len` bytes of the attribute if it returned true. -/
structure StaysInSpan (size len : Nat) (call : Bool × List Store) : Prop where
  inside : ∀ i, WritesAt call.2 i → i < size
  silent : call.1 = false → ∀ i, ¬WritesAt call.2 i
  confined : call.1 = true → ∀ i, WritesAt call.2 i → i < attrHeaderSize + roundUp4 len

theorem not_writesAt_nil (i : Nat) : ¬WritesAt [] i := by
  rintro ⟨s, hs, -⟩
  cases hs

theorem staysInSpan_refused (size len : Nat) : StaysInSpan size len (false, []) where
  inside i hw := absurd hw (not_writesAt_nil i)
  silent _ := not_writesAt_nil
  confined h := by cases h

section Spec

variable {α : Type} [AttributeSpec α] {a : α}

/-- The stores of an attribute whose `length()` is not cut end in the announced bytes. -/
theorem writesAt_lt (hready : AttributeSpec.ready a = true) (hcut : ¬AttributeSpec.truncates a)
    {header : Bytes} (hheader : header.length = 4) {i : Nat}
    (hw : WritesAt (memcpy 0 header :: AttributeSpec.body a) i) :
    i < attrHeaderSize + roundUp4 (StunAttribute.length a) := by
  obtain ⟨s, hs, -, hhi⟩ := hw
  rcases List.mem_cons.1 hs with rfl | hs
  · rw [memcpy_dst, memcpy_items, hheader] at hhi
    rw [attrHeaderSize]
    omega
  · exact hhi.trans_le (AttributeSpec.body_reach a hready hcut s hs)

/-- **Encoders stay in their spans** exactly when `length()` is not cut or the span is refused. -/
theorem AttributeSpec.staysInSpan_iff (a : α) (size : Nat) :
    StaysInSpan size (StunAttribute.length a) (StunAttribute.encode a size) ↔
      ¬(AttributeSpec.truncates a ∧ AttributeSpec.ready a = true ∧
        AttributeSpec.room a ≤ size) := by
  rw [AttributeSpec.encode_eq]
  by_cases hok : AttributeSpec.ready a = true ∧ AttributeSpec.room a ≤ size
  · rw [if_pos hok]
    constructor
    · rintro hstays ⟨hcut, -⟩
      obtain ⟨s, hs, hne, hend⟩ := AttributeSpec.body_spill a hcut
      have hpos := List.length_pos_iff.2 hne
      have hlt := hstays.confined rfl (s.dst + s.items.length - 1)
        ⟨s, List.mem_cons_of_mem _ hs, by omega, by omega⟩
      omega
    · intro hcond
      have hcut : ¬AttributeSpec.truncates a := fun hcut => hcond ⟨hcut, hok⟩
      have hroom := AttributeSpec.room_eq a hok.1 hcut
      constructor
      · intro i hw
        have hlt := writesAt_lt hok.1 hcut (length_writeHeader _ _) hw
        omega
      · intro hfalse
        cases hfalse
      · intro _ i hw
        exact writesAt_lt hok.1 hcut (length_writeHeader _ _) hw
  · rw [if_neg hok]
    exact ⟨fun _ hcond => hok hcond.2, fun _ => staysInSpan_refused size _⟩

end Spec

/-! ## Over all classes -/

/-- The classes whose `length()` is cast to 16 bits from the size of a container. -/
def AttrClass.castsLength : AttrClass → Bool
  | username | realm | nonce | software | alternateDomain | errorCode | addressErrorCode | data =>
    true
  | _ => false

section Classes

variable [Platform]

theorem AttrClass.truncates_iff {cls : AttrClass} (a : cls.Obj) :
    AttributeSpec.truncates a ∧ AttributeSpec.ready a = true ↔
      cls.castsLength = true ∧ 65535 < AttributeSpec.valueSize a := by
  cases cls
  case username | realm | nonce | software | alternateDomain | errorCode | addressErrorCode |
      data =>
    exact ⟨fun h => ⟨rfl, h.1⟩, fun h => ⟨h.2, rfl⟩⟩
  all_goals exact ⟨fun h => h.1.elim, fun h => by cases h.1⟩

/-- **No attribute encoder leaves its span**, unless the class casts its `length()` to 16 bits, the
value is longer than that, and the span passes the check made with the cut length. -/
theorem AttrClass.encode_staysInSpan_iff (cls : AttrClass) (a : cls.Obj) (size : Nat) :
    StaysInSpan size (StunAttribute.length a) (StunAttribute.encode a size) ↔
      (cls.castsLength = true → 65535 < AttributeSpec.valueSize a →
        size < AttributeSpec.room a) := by
  rw [AttributeSpec.staysInSpan_iff, ← and_assoc, AttrClass.truncates_iff, not_and, not_le, and_imp]

end Classes

/-- A string of 65536 bytes passes the check for a span of four, since its `length()` is zero. -/
theorem StringAttrT.not_staysInSpan {T : StunAttrType} {maxBytes : Nat}
    {a : StringAttrT T maxBytes} (h : a.value.length = 65536) :
    ¬StaysInSpan 4 (StunAttribute.length a) (StunAttribute.encode a 4) := by
  have hroom : AttributeSpec.room a = 4 + roundUp4 (StunAttribute.length a) := rfl
  rw [AttributeSpec.staysInSpan_iff, not_not]
  refine ⟨h.ge, rfl, ?_⟩
  rw [hroom, StringAttrT.length_of_cut h]
  decide

/-- SOFTWARE has no limit of its own, so such a string is copied behind its span. -/
theorem software_leaves_span :
    ¬StaysInSpan 4 (StunAttribute.length (⟨List.replicate 65536 0x61⟩ : SoftwareAttr))
      (StunAttribute.encode (⟨List.replicate 65536 0x61⟩ : SoftwareAttr) 4) :=
  StringAttrT.not_staysInSpan List.length_replicate

end Stunxx
