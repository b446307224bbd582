import Stunxx.Verify.EncoderStep

/-!
# The length field of an attribute

DATA, UNKNOWN-ATTRIBUTES, PASSWORD-ALGORITHM and PASSWORD-ALGORITHMS check their span against the
real size of a container and cast that size to 16 bits for the length field. The field is the size
of what was written as long as the size fits. A longer value is refused only where the span has no
room for it; through the encoder, DATA is also refused because its `length()` is already cut when
the encoder makes room for it.
-/

namespace Stunxx

open Overlay Digits

/-- The 16-bit integer at index `i`. -/
def lengthAt (bs : Bytes) (i : Nat) : Nat := beValue (slice bs i 2)

theorem lengthAt_of_slice {bs : Bytes} {i n : Nat} (hn : n < 65536)
    (h : slice bs i 2 = writeBe16 (UInt16.ofNat n)) : lengthAt bs i = n := by
  rw [lengthAt, h, writeBe16_ofNat, beValue_beBytes_of_lt hn]

/-- The entries of a password attribute that start at index `off`: each has its parameters where
they should be, and their number in front of them. -/
def EntriesKept (bs : Bytes) : Nat → List PasswordAlgorithmEntry → Prop
  | _, [] => True
  | off, e :: es =>
    lengthAt bs (off + 2) = e.parameters.length ∧
      slice bs (off + 4) e.parameters.length = e.parameters ∧
      EntriesKept bs (off + e.paddedLength) es

/-- Entries that are written whole are kept. -/
theorem entriesKept_of_drop {bs rest : Bytes} {off : Nat} {es : List PasswordAlgorithmEntry}
    (hparams : ∀ e ∈ es, e.parameters.length < 65536)
    (h : bs.drop off = es.flatMap PasswordAlgorithmEntry.wire ++ rest) : EntriesKept bs off es := by
  induction es generalizing off with
  | nil => trivial
  | cons e es ih =>
    rw [List.flatMap_cons, List.append_assoc] at h
    refine ⟨lengthAt_of_slice (hparams e List.mem_cons_self) ?_, ?_, ?_⟩
    · rw [slice, ← List.drop_drop, h]
      rfl
    · rw [slice, ← List.drop_drop, h]
      simp only [PasswordAlgorithmEntry.wire, List.append_assoc]
      exact List.take_left
    · refine ih (fun q hq => hparams q (List.mem_cons_of_mem e hq)) ?_
      rw [← List.drop_drop, h, ← e.length_wire, List.drop_left]

/-! ## Exact lengths -/

/-- The classes that check their span against the real size of a container. -/
def AttrClass.checksRealSize : AttrClass → Bool
  | data | unknownAttributes | passwordAlgorithm | passwordAlgorithms => true
  | _ => false

namespace Attr

/-- The entries of a password attribute. -/
def entries : Attr → List PasswordAlgorithmEntry
  | ⟨.passwordAlgorithm, _, a⟩ => [a.entry]
  | ⟨.passwordAlgorithms, _, a⟩ => a.entries
  | _ => []

variable [Platform]

/-- An attribute whose bytes start with `written`: its length field is the size of the value behind
it, and so is that of each entry. -/
structure LengthsExact (a : Attr) (written : Bytes) : Prop where
  field : lengthAt written 2 = a.valueSize
  value : slice written 4 a.valueSize = AttributeSpec.wireValue a.obj
  entries : EntriesKept written 4 a.entries

/-- A call of an encoder that wrote exact lengths if it succeeded, and that refused a value too long
for them. -/
structure LengthsKept (a : Attr) (ok : Bool) (written : Bytes) : Prop where
  exact : ok = true → a.LengthsExact written
  refused : 65535 < a.valueSize → ok = false

theorem lengthsKept_iff {a : Attr} {ok : Bool} {written : Bytes}
    (hexact : a.valueSize ≤ 65535 → ok = true → a.LengthsExact written) :
    a.LengthsKept ok written ↔ a.valueSize ≤ 65535 ∨ ok = false := by
  constructor
  · intro h
    rcases Nat.lt_or_ge 65535 a.valueSize with hsize | hsize
    · exact .inr (h.refused hsize)
    · exact .inl hsize
  · rintro (hsize | rfl)
    · exact ⟨hexact hsize, fun hlt => absurd hlt (Nat.not_lt.2 hsize)⟩
    · exact ⟨nofun, fun _ => rfl⟩

/-- The value of a password attribute is its entries. -/
theorem entriesKept_of_drop {a : Attr} (hsize : a.valueSize ≤ 65535) {bs rest : Bytes} {off : Nat}
    (h : bs.drop off = AttributeSpec.wireValue a.obj ++ rest) : EntriesKept bs off a.entries := by
  have hkept : ∀ es : List PasswordAlgorithmEntry,
      AttributeSpec.wireValue a.obj = es.flatMap PasswordAlgorithmEntry.wire →
      EntriesKept bs off es := by
    intro es hes
    have hlen : (es.flatMap PasswordAlgorithmEntry.wire).length = a.valueSize := by
      rw [← hes]
      exact AttributeSpec.length_wireValue a.obj a.ready
    rw [hes] at h
    refine Stunxx.entriesKept_of_drop ?_ h
    intro e he
    exact PasswordAlgorithmsAttr.parameters_lt_of_mem (by omega) he
  obtain ⟨cls, hord, obj⟩ := a
  cases cls
  case passwordAlgorithm => exact hkept [obj.entry] (List.flatMap_singleton _ _).symm
  case passwordAlgorithms => exact hkept obj.entries rfl
  all_goals trivial

/-- An attribute that fills its slot has exact lengths. -/
theorem lengthsExact_of_slot {a : Attr} (hsize : a.valueSize ≤ 65535) {written rest : Bytes}
    (h : written = Encoder.slot a.obj ++ rest) : a.LengthsExact written := by
  have hlen : StunAttribute.length a.obj = a.valueSize :=
    Encoder.length_of_lt a.ready (Nat.lt_succ_of_le hsize)
  have hwire : (AttributeSpec.wireValue a.obj).length = a.valueSize :=
    AttributeSpec.length_wireValue a.obj a.ready
  have hbehind : written.drop 4 = AttributeSpec.wireValue a.obj ++
      (padding (AttributeSpec.wireValue a.obj).length ++ rest) := by
    rw [h]
    exact Encoder.drop_slot_append a.obj rest
  refine ⟨lengthAt_of_slice (Nat.lt_succ_of_le hsize) ?_, ?_, entriesKept_of_drop hsize hbehind⟩
  · rw [h, Encoder.slot, hlen]
    rfl
  · rw [slice, hbehind, List.take_left' hwire]

/-- So it has where it was written over a buffer. -/
theorem lengthsExact_overlay {a : Attr} (hsize : a.valueSize ≤ 65535) {xs : Bytes} {i : Nat}
    (hroom : i + Encoder.padded a.obj ≤ xs.length) :
    a.LengthsExact ((overlay xs i (Encoder.slot a.obj)).drop i) := by
  rw [← Encoder.length_slot a.ready (Nat.lt_succ_of_le hsize)] at hroom
  exact lengthsExact_of_slot hsize (drop_overlay_self hroom)

/-- The span such a class asks for. -/
theorem room_of_checksRealSize {a : Attr} (h : a.cls.checksRealSize = true) :
    AttributeSpec.room a.obj = attrHeaderSize + roundUp4 a.valueSize := by
  obtain ⟨cls, hord, obj⟩ := a
  cases cls
  case data => rfl
  case unknownAttributes | passwordAlgorithm | passwordAlgorithms =>
    rw [AttributeSpec.room_eq obj rfl id, AttributeSpec.length_eq obj rfl id]
    rfl
  all_goals cases h

/-- The encoder makes room for what such a class asks for, and for too little of a long DATA. -/
theorem padded_cases {a : Attr} (h : a.cls.checksRealSize = true) (hsize : 65535 < a.valueSize) :
    (a.cls = .data ∧ Encoder.padded a.obj < AttributeSpec.room a.obj) ∨
      (a.cls ≠ .data ∧ Encoder.padded a.obj = AttributeSpec.room a.obj) := by
  obtain ⟨cls, hord, obj⟩ := a
  cases cls
  case data =>
    have hcut : StunAttribute.length obj = obj.value.length % 65536 := obj.toNat_length
    have hlong : 65535 < obj.value.length := hsize
    have hreal : AttributeSpec.room obj = attrHeaderSize + roundUp4 obj.value.length := rfl
    have hlt := roundUp4_lt (obj.value.length % 65536)
    have hle := le_roundUp4 obj.value.length
    refine .inl ⟨rfl, ?_⟩
    show Encoder.padded obj < AttributeSpec.room obj
    rw [hreal, Encoder.padded, hcut]
    omega
  case unknownAttributes | passwordAlgorithm | passwordAlgorithms =>
    refine .inr ⟨?_, (AttributeSpec.room_eq obj rfl id).symm⟩
    rintro ⟨⟩
  all_goals cases h

/-- Encoding into a span. -/
theorem encode_lengthsKept_iff {a : Attr} (h : a.cls.checksRealSize = true) (xs : Bytes) :
    a.LengthsKept (StunAttribute.encode a.obj xs.length).1
        (patch xs 0 (StunAttribute.encode a.obj xs.length).2) ↔
      a.valueSize ≤ 65535 ∨ xs.length < attrHeaderSize + roundUp4 a.valueSize := by
  have hok : (StunAttribute.encode a.obj xs.length).1 = false ↔
      xs.length < attrHeaderSize + roundUp4 a.valueSize := by
    rw [AttributeSpec.encode_eq, ← room_of_checksRealSize h]
    split
    · next hcond => exact iff_of_false (by simp) (Nat.not_lt.2 hcond.2)
    · next hcond => exact iff_of_true rfl (Nat.lt_of_not_le fun hle => hcond ⟨a.ready, hle⟩)
  rw [lengthsKept_iff, hok]
  intro hsize hsucc
  have hvalue : AttributeSpec.valueSize a.obj < 65536 := Nat.lt_succ_of_le hsize
  obtain ⟨hslot, hroom⟩ := Encoder.overlay_of_encode a.ready hvalue hsucc
  rw [hslot]
  exact lengthsExact_overlay (i := 0) hsize (by rwa [Nat.zero_add])

/-- Adding to a message. -/
theorem add_lengthsKept_iff {a : Attr} (h : a.cls.checksRealSize = true) (e : Encoder) :
    a.LengthsKept (e.addAttribute a.obj).1
        ((e.addAttribute a.obj).2.buffer.bytes.drop e.offset) ↔
      a.valueSize ≤ 65535 ∨ a.cls = .data ∨
        e.buffer.bytes.length < e.offset + (attrHeaderSize + roundUp4 a.valueSize) := by
  rw [Encoder.addAttribute_eq e a.ready, lengthsKept_iff]
  · refine or_congr_right' fun hlong => ?_
    rw [← room_of_checksRealSize h]
    rcases padded_cases h (Nat.lt_of_not_le hlong) with ⟨hdata, hlt⟩ | ⟨hdata, heq⟩
    · rw [if_neg fun hcond => absurd hcond.2 (Nat.not_le.2 hlt)]
      exact iff_of_true rfl (.inl hdata)
    · rw [heq]
      split
      · next hcond => exact iff_of_false nofun (not_or.2 ⟨hdata, Nat.not_lt.2 hcond.1⟩)
      · next hcond =>
        have hfull := Nat.lt_of_not_le fun hle => hcond ⟨hle, Nat.le_refl _⟩
        exact iff_of_true rfl (.inr hfull)
  · intro hsize hsucc
    split at hsucc
    · next hcond =>
      rw [if_pos hcond, Encoder.append_bytes e a.ready (Nat.lt_succ_of_le hsize)]
      exact lengthsExact_overlay hsize hcond.1
    · cases hsucc

/-- **When length fields are the size of what they count.** An attribute of such a class that is
encoded, into a span or to the end of a message, has exact length fields, its own and those of its
entries, and a value too long for them is refused, exactly when the value is not that long or there
is no room for it. The encoder refuses every DATA that is. -/
theorem lengths_kept_iff {a : Attr} (h : a.cls.checksRealSize = true) :
    (∀ xs : Bytes, a.LengthsKept (StunAttribute.encode a.obj xs.length).1
        (patch xs 0 (StunAttribute.encode a.obj xs.length).2) ↔
      a.valueSize ≤ 65535 ∨ xs.length < attrHeaderSize + roundUp4 a.valueSize) ∧
    ∀ e : Encoder, a.LengthsKept (e.addAttribute a.obj).1
        ((e.addAttribute a.obj).2.buffer.bytes.drop e.offset) ↔
      a.valueSize ≤ 65535 ∨ a.cls = .data ∨
        e.buffer.bytes.length < e.offset + (attrHeaderSize + roundUp4 a.valueSize) :=
  ⟨encode_lengthsKept_iff h, add_lengthsKept_iff h⟩

end Attr

/-! ## A cut length -/

/-- A successful `encode` leaves the cut `length()` in the length field. -/
theorem lengthAt_of_encode {α : Type} [AttributeSpec α] {a : α} {xs : Bytes} (hroom : 4 ≤ xs.length)
    (hok : (StunAttribute.encode a xs.length).1 = true) :
    lengthAt (patch xs 0 (StunAttribute.encode a xs.length).2) 2 =
      StunAttribute.length a % 65536 := by
  rw [AttributeSpec.encode_eq] at hok ⊢
  split at hok
  · next hcond =>
    have hhead := Encoder.slice_append_header { buffer := { bytes := xs }, offset := 0 } a hroom
    rw [Encoder.append, Memory.storeAll_bytes] at hhead
    have hmod : UInt16.ofNat (StunAttribute.length a % 65536) =
        UInt16.ofNat (StunAttribute.length a) := by
      apply UInt16.toNat_inj.1
      simp only [UInt16.toNat_ofNat', Nat.mod_mod]
    rw [if_pos hcond]
    apply lengthAt_of_slice (Nat.mod_lt _ (by omega))
    have hinner : 2 + 2 ≤ 4 := Nat.le_refl 4
    rw [hmod, ← Nat.zero_add 2, ← slice_slice _ hinner, hhead]
    rfl
  · cases hok

/-- A list of 32768 codes is a value of 65536 bytes. -/
theorem UnknownAttributesAttr.encode_of_cut {a : UnknownAttributesAttr}
    (h : a.value.length = 32768) : (a.encode 65540).1 = true ∧ a.length = 65536 := by
  have hlen : a.length = 65536 := by rw [length, h]
  refine ⟨?_, hlen⟩
  rw [encode, if_neg]
  rw [paddedLength, hlen]
  decide

section Witness

local instance lengthHost : Platform := .ofDigest []

/-- A DATA of three bytes in a span of eight, and PASSWORD-ALGORITHMS with two entries, one of them
with parameters, in a span of twenty. -/
theorem lengths_kept_iff_entries :
    let data : DataAttr := ⟨[1, 2, 3]⟩
    let obj : PasswordAlgorithmsAttr := ⟨[⟨⟨1⟩, []⟩, ⟨⟨2⟩, [0xA, 0xB, 0xC]⟩]⟩
    let written := patch (List.replicate 20 0) 0 (StunAttribute.encode obj 20).2
    (⟨.data, rfl, data⟩ : Attr).LengthsKept (StunAttribute.encode data 8).1
        (patch (List.replicate 8 0) 0 (StunAttribute.encode data 8).2) ∧
      (⟨.passwordAlgorithms, rfl, obj⟩ : Attr).LengthsKept (StunAttribute.encode obj 20).1
        written ∧
      lengthAt written 2 = 12 ∧ lengthAt written 10 = 3 := by
  intro data obj written
  have hdata := ((Attr.lengths_kept_iff (a := ⟨.data, rfl, data⟩) rfl).1
    (List.replicate 8 0)).2 (.inl (by decide))
  have hkept := ((Attr.lengths_kept_iff (a := ⟨.passwordAlgorithms, rfl, obj⟩) rfl).1
    (List.replicate 20 0)).2 (.inl (by decide))
  exact ⟨hdata, hkept, by decide +kernel, by decide +kernel⟩

/-- UNKNOWN-ATTRIBUTES with 32768 codes is written whole, under a length field of zero. -/
theorem unknown_attributes_length_cut :
    ∃ (a : UnknownAttributesAttr) (xs : Bytes), a.value.length = 32768 ∧ xs.length = 65540 ∧
      (StunAttribute.encode a xs.length).1 = true ∧
      lengthAt (patch xs 0 (StunAttribute.encode a xs.length).2) 2 = 0 ∧
      (⟨.unknownAttributes, rfl, a⟩ : Attr).valueSize = 65536 ∧
      ¬(⟨.unknownAttributes, rfl, a⟩ : Attr).LengthsKept (StunAttribute.encode a xs.length).1
        (patch xs 0 (StunAttribute.encode a xs.length).2) := by
  obtain ⟨a, ha⟩ : ∃ a : UnknownAttributesAttr, a.value.length = 32768 :=
    ⟨⟨List.replicate 32768 0⟩, List.length_replicate⟩
  obtain ⟨xs, hxs⟩ : ∃ xs : Bytes, xs.length = 65540 :=
    ⟨List.replicate 65540 0, List.length_replicate⟩
  obtain ⟨hencode, hlen⟩ := UnknownAttributesAttr.encode_of_cut ha
  have hok : (StunAttribute.encode a xs.length).1 = true := by
    rw [hxs]
    exact hencode
  have hfield := lengthAt_of_encode (by omega) hok
  have hcut : StunAttribute.length a = 65536 := hlen
  have hsize : (⟨.unknownAttributes, rfl, a⟩ : Attr).valueSize = 65536 :=
    a.length_wireValue.trans hlen
  rw [hcut] at hfield
  refine ⟨a, xs, ha, hxs, hok, hfield, hsize, ?_⟩
  intro hkept
  have hfalse := hkept.refused (by omega)
  have htrue : (StunAttribute.encode a xs.length).1 = false := hfalse
  rw [hok] at htrue
  cases htrue

end Witness

end Stunxx
