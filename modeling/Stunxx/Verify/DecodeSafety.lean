import Stunxx.Verify.DecodeLoop
import Mathlib.Data.List.Chain

/-!
# The decoder on hostile input

`decode` never faults, whatever the buffer holds, and every header it appends, on the way to
success or to failure, names a value inside the message. The places come from the walk of the
attribute stream, so the bounds are those of `Tlv.layout`.
-/

namespace Stunxx

open Overlay Tlv

namespace Decoder

/-- What every header `decode` appends satisfies, for a message that ends at `messageEnd`. -/
structure AppendedOK (messageEnd : Nat) (h : AttrHeader) : Prop where
  aligned : 4 ∣ h.offset
  after_header : 24 ≤ h.offset
  le_end : h.offset + h.len.toNat ≤ messageEnd

/-- The headers of a walk of the announced bytes, accepting or not. -/
theorem appendedOK_of_walk {buffer : Bytes} {h : StunHeader} (hf : Framed buffer h)
    {hd : AttrHeader}
    (hmem : hd ∈ wireHeaders 20 (walk stunFormat (attrBytes buffer h)).2) :
    AppendedOK (20 + h.msgLength.toNat) hd := by
  obtain ⟨p, hp, -, hlen, hoff⟩ := mem_wireHeaders (fun _ => walk_value_lt stunFormat) hmem
  have hin := walk_place_le stunFormat (attrBytes buffer h) hp
  have hpad : ∀ n, 4 ∣ n + stunFormat.pad n := by
    intro n
    have hle := le_roundUp4 n
    rw [pad_stunFormat, Nat.add_sub_cancel' hle]
    exact four_dvd_roundUp4 n
  rw [hf.length_attrBytes] at hin
  refine ⟨?_, ?_, ?_⟩
  · rw [hoff]
    exact dvd_off_of_mem_layout stunFormat (Nat.dvd_refl 4) hpad ⟨5, rfl⟩ hp
  · rw [hoff]
    exact le_off_of_mem_layout stunFormat hp
  · rw [hoff, hlen]
    exact hin

/-- Consecutive headers of a stream leave room for a head between them. -/
theorem wireHeaders_isChain (off : Nat) {rs : List WireAttr}
    (hrs : ∀ r ∈ rs, r.value.length < 65536) :
    (wireHeaders off rs).IsChain fun a b => a.offset + a.len.toNat + 4 ≤ b.offset := by
  rw [wireHeaders, List.isChain_map]
  refine (layout_isChain stunFormat off rs).imp_of_mem_imp ?_
  intro p q hp _ hle
  obtain ⟨r, hr, -, hlen⟩ := exists_of_mem_layout stunFormat hp
  have hlt := hrs r hr
  simp only [AttrHeader.ofPlace, UInt16.toNat_ofNat']
  rw [Nat.mod_eq_of_lt (by omega)]
  exact hle

/-- **`decode` of a fresh decoder is safe on every buffer**: it returns without a fault, and the
headers it appended lie in the message, aligned, in order and apart from one another. -/
theorem decode_safe (buffer : Bytes) :
    ∃ ok d appended, (new buffer).decode = .ok (ok, d) ∧
      d.attributes.attributes = AttributeTable.new.attributes ++ appended ∧
      (∀ h ∈ appended, 4 ∣ h.offset ∧ 24 ≤ h.offset ∧
        h.offset + h.len.toNat ≤ 20 + d.messageLength.toNat ∧
        20 + d.messageLength.toNat ≤ buffer.length) ∧
      appended.IsChain fun a b => a.offset + a.len.toNat + 4 ≤ b.offset := by
  by_cases hf : ∃ h, Framed buffer h
  · obtain ⟨h, hf⟩ := hf
    refine ⟨_, _, _, decode_new_of_framed hf, rfl, ?_, ?_⟩
    · intro hd hmem
      have hok := appendedOK_of_walk hf hmem
      exact ⟨hok.aligned, hok.after_header, hok.le_end, hf.room⟩
    · exact wireHeaders_isChain 20 fun _ => walk_value_lt stunFormat
  · obtain ⟨h, hfalse⟩ := decode_of_not_framed (d := new buffer) hf
    refine ⟨false, _, [], hfalse, (List.append_nil _).symm, ?_, .nil⟩
    intro hd hmem
    cases hmem

end Decoder

end Stunxx
