import Stunxx.Attributes.Fixed
import Stunxx.Verify.Lookup

/-!
# The order of attributes

A lookup asks for one type, so it sees the attributes of a message type by type. In messages that
carry the same values of every type in the same order (`Tlv.SameByTag`) every lookup of every class
finds the same, whatever the types are interleaved with, whatever the padding and whatever stands
behind the last attribute (`Decoder.lookups_of_sameByTag`).
-/

namespace Stunxx

open Overlay Tlv

section SameByTag

variable {rs rs' : List WireAttr} (h : SameByTag rs rs')

include h

theorem valuesOf_of_sameByTag (α : Type) [StunAttribute α] (tid : TransactionId) :
    Decoder.valuesOf α tid rs = Decoder.valuesOf α tid rs' := by
  have hvalues := congrArg (List.filterMap fun p : UInt16 × Bytes =>
    (StunAttribute.decode tid p.2 : Option α)) (h (StunAttribute.type α).code)
  rw [List.filterMap_map, List.filterMap_map] at hvalues
  exact hvalues

/-- The first attribute of a type decodes to the same. -/
theorem find?_bind_of_sameByTag (α : Type) [StunAttribute α] (tid : TransactionId) :
    ((rs.find? fun r => r.tag == (StunAttribute.type α).code).bind
        fun r => (StunAttribute.decode tid r.value : Option α)) =
      (rs'.find? fun r => r.tag == (StunAttribute.type α).code).bind
        fun r => StunAttribute.decode tid r.value := by
  have hfirst := congrArg (fun l => l.head?.bind fun p : UInt16 × Bytes =>
    (StunAttribute.decode tid p.2 : Option α)) (h (StunAttribute.type α).code)
  simp only [List.head?_map, Option.bind_map, List.head?_filter] at hfirst
  exact hfirst

theorem unknownTypes_of_sameByTag : (unknownTypes rs).Perm (unknownTypes rs') := by
  have htags := (h.perm.map Prod.fst).filter fun t =>
    isComprehensionRequired t && !isKnownAttrType t
  rwa [List.map_map, List.map_map] at htags

end SameByTag

/-- **Only the order within a type matters**: two messages with one transaction ID and the same
values of every type, in any buffers, are the same to every lookup of every class, they report the
same unknown types up to their order, and have the same size. -/
theorem Decoder.lookups_of_sameByTag {b b' : Bytes} {d d' : Decoder}
    (hparse : parse b = .ok (some d)) (hparse' : parse b' = .ok (some d'))
    (htid : d.transactionId = d'.transactionId)
    (hsame : SameByTag (attrsRead b d.stunHeader) (attrsRead b' d'.stunHeader)) :
    (∀ (α : Type) [StunAttribute α], d.getAttributes α = d'.getAttributes α ∧
      d.getAttribute α = d'.getAttribute α) ∧
    d.unknownRequired.Perm d'.unknownRequired ∧ d.totalLength = d'.totalLength := by
  obtain ⟨h, rs, hg, rfl⟩ := parse_eq_some_iff.1 hparse
  obtain ⟨h', rs', hg', rfl⟩ := parse_eq_some_iff.1 hparse'
  have htid' : h.transactionId = h'.transactionId := htid
  have hattrs : attrsRead b h = rs := hg.attrsRead_eq
  have hattrs' : attrsRead b' h' = rs' := hg'.attrsRead_eq
  have hrecords : SameByTag rs rs' := by
    rw [← hattrs, ← hattrs']
    exact hsame
  refine ⟨fun α _ => ⟨?_, ?_⟩, unknownTypes_of_sameByTag hrecords, ?_⟩
  · rw [getAttributes_parsed α hg, getAttributes_parsed α hg', htid']
    exact valuesOf_of_sameByTag hrecords α h'.transactionId
  · rw [getAttribute_parsed α hg, getAttribute_parsed α hg', htid']
    exact find?_bind_of_sameByTag hrecords α h'.transactionId
  · exact congrArg (20 + ·) (hrecords.sum_stride_eq stunFormat)

/-! A LIFETIME in front of a PRIORITY, and behind it. -/

def refreshHeader : StunHeader := ⟨0x0004, 16, magicCookie, ByteArrayN.zero 12⟩

def refreshAttrs : List WireAttr := [⟨0x000D, [0, 0, 0, 60], []⟩, ⟨0x0024, [0, 0, 0, 7], []⟩]

theorem grammar_refresh {rs : List WireAttr} (h : rs.Perm refreshAttrs) :
    Grammar (refreshHeader.wire ++ rs.flatMap (wire stunFormat)) refreshHeader rs := by
  have hfull : ∀ r ∈ rs, Full stunFormat r := by
    have hall : ∀ r ∈ refreshAttrs, Full stunFormat r := by
      simp only [refreshAttrs, List.forall_mem_cons]
      exact ⟨⟨by decide, rfl⟩, ⟨by decide, rfl⟩, nofun⟩
    exact fun r hr => hall r (h.mem_iff.1 hr)
  refine Grammar.of_wire rfl hfull ?_
  rw [length_flatMap_wire stunFormat hfull, (h.map (stride stunFormat)).sum_eq]
  rfl

theorem Decoder.lookups_of_sameByTag_refresh :
    let message (rs : List WireAttr) := refreshHeader.wire ++ rs.flatMap (wire stunFormat)
    (parsed (message refreshAttrs) refreshHeader refreshAttrs).getAttributes PriorityAttr =
      (parsed (message refreshAttrs.reverse) refreshHeader refreshAttrs.reverse).getAttributes
        PriorityAttr := by
  intro message
  have hg := grammar_refresh (List.Perm.refl refreshAttrs)
  have hg' := grammar_refresh (List.reverse_perm refreshAttrs)
  refine ((lookups_of_sameByTag (parse_eq_some_iff.2 ⟨_, _, hg, rfl⟩)
    (parse_eq_some_iff.2 ⟨_, _, hg', rfl⟩) rfl ?_).1 PriorityAttr).1
  have hattrs : attrsRead _ refreshHeader = refreshAttrs := hg.attrsRead_eq
  have hattrs' : attrsRead _ refreshHeader = refreshAttrs.reverse := hg'.attrsRead_eq
  show SameByTag (attrsRead _ refreshHeader) (attrsRead _ refreshHeader)
  rw [hattrs, hattrs']
  intro t
  by_cases hlifetime : t = 0x000D
  · rw [hlifetime]
    rfl
  · have hne : ¬(0x000D : UInt16) = t := Ne.symm hlifetime
    simp only [refreshAttrs, List.reverse_cons, List.reverse_nil, List.nil_append,
      List.singleton_append, List.filter_cons, List.filter_nil, beq_iff_eq, if_neg hne]

end Stunxx
