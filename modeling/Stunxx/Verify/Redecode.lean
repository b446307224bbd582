import Mathlib.Algebra.GroupWithZero.Nat
import Stunxx.Attributes.Registry
import Stunxx.Verify.Lookup

/-!
# Decoding again

`decode` is public and can be called again on the same decoder. It sets the header and the offset,
but it appends to the table and to the unknown required types, so after `n + 1` calls both hold
every attribute `n + 1` times (`decodeTimes_of_framed`). The first header of a type stays the
first, so `getAttribute` sees nothing of it; `getAttributes` and `unknownRequired()` do, unless
there is nothing to repeat.
-/

namespace Stunxx

open Overlay Tlv

namespace Decoder

/-- `n + 1` calls of `decode` on one decoder: the last verdict, and the decoder they leave. -/
def decodeTimes (d : Decoder) : Nat → Except Fault (Bool × Decoder)
  | 0 => d.decode
  | n + 1 => do
    let (_, e) ← d.decode
    e.decodeTimes n

theorem decodeTimes_succ {d e : Decoder} {ok : Bool} (h : d.decode = .ok (ok, e)) (n : Nat) :
    d.decodeTimes (n + 1) = e.decodeTimes n := by
  rw [decodeTimes, h]
  rfl

/-! ## What is left after the last call -/

/-- A decoder that has read the attributes `rs` of a message `n + 1` times. -/
def repeated (d : Decoder) (h : StunHeader) (rs : List WireAttr) (n : Nat) : Decoder :=
  { d with
    stunHeader := h
    attributes :=
      ⟨d.attributes.attributes ++ (List.replicate (n + 1) (wireHeaders 20 rs)).flatten⟩
    unknownRequired := d.unknownRequired ++ (List.replicate (n + 1) (unknownTypes rs)).flatten
    offset := 20 + (rs.map (stride stunFormat)).sum }

/-- Reading a message once more. -/
theorem repeated_zero_repeated (d : Decoder) (h : StunHeader) (rs : List WireAttr) (n : Nat) :
    (d.repeated h rs 0).repeated h rs n = d.repeated h rs (n + 1) := by
  simp only [repeated, List.replicate_succ, List.flatten_cons, List.replicate_zero,
    List.flatten_nil, List.append_nil, List.append_assoc]

theorem decode_eq_repeated {d : Decoder} {h : StunHeader} (hf : Framed d.buffer h) :
    d.decode = .ok ((walk stunFormat (attrBytes d.buffer h)).1,
      d.repeated h (attrsRead d.buffer h) 0) := by
  rw [decode_of_framed hf, acceptAll_eq _ fun _ => walk_value_lt stunFormat, repeated,
    List.replicate_one, List.replicate_one, List.flatten_singleton, List.flatten_singleton]
  rfl

/-- **Every call reads the message again**: the verdict is that of the first one. -/
theorem decodeTimes_of_framed {d : Decoder} {h : StunHeader} (hf : Framed d.buffer h) (n : Nat) :
    d.decodeTimes n = .ok ((walk stunFormat (attrBytes d.buffer h)).1,
      d.repeated h (attrsRead d.buffer h) n) := by
  induction n generalizing d with
  | zero => exact decode_eq_repeated hf
  | succ n ih =>
    have hagain := ih (d := d.repeated h (attrsRead d.buffer h) 0) hf
    have hbuffer : (d.repeated h (attrsRead d.buffer h) 0).buffer = d.buffer := rfl
    rw [decodeTimes_succ (decode_eq_repeated hf), hagain, hbuffer, repeated_zero_repeated]

theorem decodeTimes_of_not_framed {d : Decoder} (hf : ¬∃ h, Framed d.buffer h) (n : Nat) :
    ∃ h, d.decodeTimes n = .ok (false, { d with stunHeader := h }) := by
  induction n generalizing d with
  | zero => exact decode_of_not_framed hf
  | succ n ih =>
    obtain ⟨h, hfirst⟩ := decode_of_not_framed hf
    obtain ⟨g, hagain⟩ := ih (d := { d with stunHeader := h }) hf
    exact ⟨g, (decodeTimes_succ hfirst n).trans hagain⟩

/-! ## Lookups after the last call -/

section Typed

variable (α : Type) [StunAttribute α]

/-- A decoder that has accepted no attribute has none to deliver. -/
theorem lookups_of_new {d : Decoder} (hnew : d.attributes = AttributeTable.new) :
    d.getAttribute α = none ∧ d.getAttributes α = [] := by
  have hrange : d.attributes.range (StunAttribute.type α).code = [] := by
    have happ : d.attributes = ⟨AttributeTable.new.attributes ++ []⟩ := by
      rw [hnew, List.append_nil]
    rw [happ, AttributeTable.range_append_new, if_neg (StunAttrType.code_ne_zero _),
      List.filter_nil, List.append_nil]
  constructor
  · unfold getAttribute
    rw [AttributeTable.get_eq_head, hrange]
    split <;> rfl
  · unfold getAttributes
    rw [hrange]
    split <;> rfl

variable {buffer : Bytes} {h : StunHeader}

/-- The headers of a class after `n + 1` calls. -/
theorem range_repeated (n : Nat) :
    ((new buffer).repeated h (attrsRead buffer h) n).attributes.range
        (StunAttribute.type α).code =
      (List.replicate (n + 1) (headersOf α buffer h)).flatten := by
  rw [repeated, new, AttributeTable.range_append_new, if_neg (StunAttrType.code_ne_zero _),
    List.nil_append, List.filter_flatten, List.map_replicate]
  rfl

theorem repeated_le (hf : Framed buffer h) (n : Nat) :
    ∀ hd ∈ (List.replicate (n + 1) (headersOf α buffer h)).flatten,
      hd.offset + hd.len.toNat ≤ buffer.length := by
  intro hd hmem
  obtain ⟨hs, hhs, hin⟩ := List.mem_flatten.1 hmem
  rw [List.eq_of_mem_replicate hhs] at hin
  exact headersOf_le α hf hd hin

/-- `getAttribute` delivers what it did after the first call. -/
theorem getAttribute_repeated (hf : Framed buffer h) (n : Nat) :
    ((new buffer).repeated h (attrsRead buffer h) n).getAttribute α =
      (headersOf α buffer h).head?.bind (valueAt α h.transactionId buffer) := by
  rw [getAttribute_of_range α (buffer_ne_empty hf) (range_repeated α n) (repeated_le α hf n),
    List.head?_flatten_replicate n.succ_ne_zero]
  rfl

/-- `getAttributes` delivers every value once a call. -/
theorem getAttributes_repeated (hf : Framed buffer h) (n : Nat) :
    ((new buffer).repeated h (attrsRead buffer h) n).getAttributes α =
      (List.replicate (n + 1) (valuesOf α h.transactionId (attrsRead buffer h))).flatten := by
  rw [getAttributes_of_range α (buffer_ne_empty hf) (range_repeated α n) (repeated_le α hf n),
    List.filterMap_flatten, List.map_replicate, ← filterMap_headersOf α hf]
  rfl

end Typed

/-- Copies of a list are the list only if there is one copy or nothing to copy. -/
theorem flatten_replicate_eq_iff {β : Type} {l : List β} {n : Nat} :
    (List.replicate (n + 1) l).flatten = l ↔ n = 0 ∨ l = [] := by
  constructor
  · intro h
    have hlen := congrArg List.length h
    rw [List.length_flatten, List.map_replicate, List.sum_replicate_nat, Nat.succ_mul,
      Nat.add_eq_right, Nat.mul_eq_zero, List.length_eq_zero_iff] at hlen
    exact hlen
  · rintro (rfl | rfl)
    · exact List.flatten_singleton
    · exact List.flatten_replicate_nil

/-! ## When decoding again changes nothing -/

section Again

variable [Platform]

/-- Two decoders report the same unknown required types, the same length and the same attributes of
every class. -/
structure SameResults (d e : Decoder) : Prop where
  unknownRequired : e.unknownRequired = d.unknownRequired
  totalLength : e.totalLength = d.totalLength
  getAttribute : ∀ cls : AttrClass, e.getAttribute cls.Obj = d.getAttribute cls.Obj
  getAttributes : ∀ cls : AttrClass, e.getAttributes cls.Obj = d.getAttributes cls.Obj

/-- An attribute that the decoder reports nowhere: its type is known or need not be, and no class
decodes its value. -/
def Inert (tid : TransactionId) (r : WireAttr) : Prop :=
  (isComprehensionRequired r.tag = true → isKnownAttrType r.tag = true) ∧
    ∀ cls : AttrClass, r.tag = (StunAttribute.type cls.Obj).code →
      (StunAttribute.decode tid r.value : Option cls.Obj) = none

/-- The attributes that `decode` reads of a buffer are reported nowhere. -/
def Quiet (buffer : Bytes) : Prop :=
  ∀ h, Framed buffer h → ∀ r ∈ attrsRead buffer h, Inert h.transactionId r

theorem inert_iff {tid : TransactionId} {rs : List WireAttr} :
    (∀ r ∈ rs, Inert tid r) ↔
      unknownTypes rs = [] ∧ ∀ cls : AttrClass, valuesOf cls.Obj tid rs = [] := by
  have hunknown : unknownTypes rs = [] ↔
      ∀ r ∈ rs, isComprehensionRequired r.tag = true → isKnownAttrType r.tag = true := by
    simp only [unknownTypes, List.filter_eq_nil_iff, List.forall_mem_map, Bool.and_eq_true,
      Bool.not_eq_true', not_and, Bool.not_eq_false]
  have hvalues : ∀ cls : AttrClass, valuesOf cls.Obj tid rs = [] ↔
      ∀ r ∈ rs, r.tag = (StunAttribute.type cls.Obj).code →
        (StunAttribute.decode tid r.value : Option cls.Obj) = none := by
    intro cls
    simp only [valuesOf, List.filterMap_eq_nil_iff, List.mem_filter, beq_iff_eq, and_imp]
  unfold Inert
  simp only [hunknown, hvalues]
  constructor
  · intro h
    exact ⟨fun r hr => (h r hr).1, fun cls r hr => (h r hr).2 cls⟩
  · rintro ⟨hknown, hnone⟩ r hr
    exact ⟨hknown r hr, fun cls => hnone cls r hr⟩

variable {buffer : Bytes} {h : StunHeader}

/-- After `n + 1` calls the results are those of the first call if there was only one, or if there
was nothing to report. -/
theorem sameResults_repeated_iff (hf : Framed buffer h) (n : Nat) :
    SameResults ((new buffer).repeated h (attrsRead buffer h) 0)
        ((new buffer).repeated h (attrsRead buffer h) n) ↔
      n = 0 ∨ ∀ r ∈ attrsRead buffer h, Inert h.transactionId r := by
  have hone : ∀ {β : Type} (l : List β), (List.replicate (0 + 1) l).flatten = l :=
    fun l => List.flatten_singleton
  rw [inert_iff]
  constructor
  · intro hsame
    have hunknown : (List.replicate (n + 1) (unknownTypes (attrsRead buffer h))).flatten =
        (List.replicate (0 + 1) (unknownTypes (attrsRead buffer h))).flatten :=
      hsame.unknownRequired
    have hvalues := hsame.getAttributes
    simp only [getAttributes_repeated _ hf, hone, flatten_replicate_eq_iff] at hunknown hvalues
    rcases hunknown with hn | hunknown
    · exact .inl hn
    by_cases hn : n = 0
    · exact .inl hn
    · exact .inr ⟨hunknown, fun cls => (hvalues cls).resolve_left hn⟩
  · rintro (rfl | ⟨hunknown, hvalues⟩)
    · exact ⟨rfl, rfl, fun _ => rfl, fun _ => rfl⟩
    · refine ⟨?_, rfl, ?_, ?_⟩
      · simp only [repeated, hunknown, List.flatten_replicate_nil]
      · intro cls
        rw [getAttribute_repeated _ hf, getAttribute_repeated _ hf]
      · intro cls
        rw [getAttributes_repeated _ hf, getAttributes_repeated _ hf, hvalues,
          List.flatten_replicate_nil, List.flatten_replicate_nil]

/-- Nothing is reported of a buffer that is no message, however often it is decoded. -/
theorem sameResults_of_not_framed (buffer : Bytes) (h g : StunHeader) :
    SameResults { new buffer with stunHeader := h } { new buffer with stunHeader := g } := by
  refine ⟨rfl, rfl, ?_, ?_⟩
  · intro cls
    rw [(lookups_of_new cls.Obj rfl).1, (lookups_of_new cls.Obj rfl).1]
  · intro cls
    rw [(lookups_of_new cls.Obj rfl).2, (lookups_of_new cls.Obj rfl).2]

/-- The verdict of any number of calls is that of the first one; their results are those of the
first one if it was the only one, or if the attributes are reported nowhere. -/
theorem sameResults_decodeTimes_iff (buffer : Bytes) (n : Nat) :
    ∃ ok d e, (new buffer).decode = .ok (ok, d) ∧ (new buffer).decodeTimes n = .ok (ok, e) ∧
      (SameResults d e ↔ n = 0 ∨ Quiet buffer) := by
  by_cases hf : ∃ h, Framed buffer h
  · obtain ⟨h, hf⟩ := hf
    have hquiet : Quiet buffer ↔ ∀ r ∈ attrsRead buffer h, Inert h.transactionId r := by
      refine ⟨fun hall => hall h hf, fun hall g hg => ?_⟩
      rwa [← hf.unique hg]
    refine ⟨_, _, _, decode_eq_repeated (d := new buffer) hf,
      decodeTimes_of_framed (d := new buffer) hf n, ?_⟩
    rw [hquiet]
    exact sameResults_repeated_iff hf n
  · obtain ⟨h, hfirst⟩ := decode_of_not_framed (d := new buffer) hf
    obtain ⟨g, hlast⟩ := decodeTimes_of_not_framed (d := new buffer) hf n
    have hquiet : Quiet buffer := fun g hg => absurd ⟨g, hg⟩ hf
    refine ⟨_, _, _, hfirst, hlast, ?_⟩
    simp only [sameResults_of_not_framed, hquiet, or_true]

/-- **When decoding again changes nothing**: any number of calls gives the verdict and the results
of the first one exactly for the buffers whose attributes are reported nowhere. The same goes for
one more call on the decoder that `parse` returns. -/
theorem redecode_iff (buffer : Bytes) :
    ((∀ n, ∃ ok d e, (new buffer).decode = .ok (ok, d) ∧
      (new buffer).decodeTimes n = .ok (ok, e) ∧ SameResults d e) ↔ Quiet buffer) ∧
    ∀ d, parse buffer = .ok (some d) →
      ((∃ e, d.decode = .ok (true, e) ∧ SameResults d e) ↔ Quiet buffer) := by
  -- one more call already tells
  obtain ⟨ok, d, e, hfirst, hagain, hiff⟩ := sameResults_decodeTimes_iff buffer 1
  have hquiet : SameResults d e ↔ Quiet buffer := by
    rw [hiff]
    simp only [Nat.one_ne_zero, false_or]
  constructor
  · constructor
    · intro hall
      obtain ⟨ok', d', e', hfirst', hagain', hsame⟩ := hall 1
      obtain ⟨-, rfl⟩ := Prod.mk.inj (Except.ok.inj (hfirst.symm.trans hfirst'))
      obtain ⟨-, rfl⟩ := Prod.mk.inj (Except.ok.inj (hagain.symm.trans hagain'))
      exact hquiet.1 hsame
    · intro hq n
      obtain ⟨ok', d', e', hfirst', hlast, hiff'⟩ := sameResults_decodeTimes_iff buffer n
      exact ⟨ok', d', e', hfirst', hlast, hiff'.2 (.inr hq)⟩
  · intro d' hparse
    have hdec := decode_new_eq_true_iff.2 (parse_eq_some_iff.1 hparse)
    obtain ⟨rfl, rfl⟩ := Prod.mk.inj (Except.ok.inj (hfirst.symm.trans hdec))
    rw [decodeTimes_succ hfirst] at hagain
    change d.decode = .ok (true, e) at hagain
    constructor
    · rintro ⟨e', hdec', hsame⟩
      obtain ⟨-, rfl⟩ := Prod.mk.inj (Except.ok.inj (hagain.symm.trans hdec'))
      exact hquiet.1 hsame
    · intro hq
      exact ⟨e, hagain, hquiet.2 hq⟩

end Again

local instance redecodeHost : Platform := .ofDigest []

/-- The PRIORITY of the message is delivered twice when the decoder of `parse` decodes again. -/
theorem priority_delivered_twice :
    ∃ d e, parse priorityMessage = .ok (some d) ∧ d.decode = .ok (true, e) ∧
      (new priorityMessage).decodeTimes 1 = .ok (true, e) ∧
      d.getAttributes PriorityAttr = [⟨7⟩] ∧ e.getAttributes PriorityAttr = [⟨7⟩, ⟨7⟩] ∧
      ¬SameResults d e := by
  have hf := priorityMessage_grammar.toFramed
  have hwalk := priorityMessage_grammar.tiling.walk_eq stunFormat
  have hfirst := decode_eq_repeated (d := new priorityMessage) hf
  have hsecond := decodeTimes_of_framed (d := new priorityMessage) hf 1
  have hvalues : valuesOf PriorityAttr priorityHeader.transactionId
      (attrsRead priorityMessage priorityHeader) = [⟨7⟩] := by
    rw [priorityMessage_grammar.attrsRead_eq]
    rfl
  change _ = Except.ok ((walk stunFormat (attrBytes priorityMessage priorityHeader)).1, _)
    at hfirst hsecond
  rw [hwalk] at hfirst hsecond
  have hagain := hsecond
  rw [decodeTimes_succ hfirst] at hagain
  have honce := getAttributes_repeated PriorityAttr hf 0
  have htwice := getAttributes_repeated PriorityAttr hf 1
  rw [hvalues] at honce htwice
  refine ⟨_, _, parse_eq_some_iff.2 (decode_new_eq_true_iff.1 hfirst), hagain, hsecond, honce,
    htwice, ?_⟩
  intro hsame
  have heq := honce.symm.trans ((hsame.getAttributes .priority).symm.trans htwice)
  cases heq

end Decoder

end Stunxx
