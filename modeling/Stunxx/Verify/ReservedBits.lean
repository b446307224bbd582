import Stunxx.Attributes.Fixed
import Stunxx.Attributes.XorAddress
import Stunxx.Verify.ErrorCodes

/-!
# Reserved bits on reception

Two values that differ only in the reserved bits of their attribute should be read alike. A decoder
that does not change when the reserved bits are cleared reads them alike
(`ignoresReserved_of_clear`), and this is how it is shown of all but one. CHANNEL-NUMBER looks at
its reserved half: it rejects a channel that it would accept with zeros there.
-/

namespace Stunxx

/-! ## Clearing bits -/

/-- `bs` with the bits of `mask` cleared; past its end `mask` is zero. -/
def clearReserved : List UInt8 → Bytes → Bytes
  | m :: ms, b :: bs => (b &&& ~~~m) :: clearReserved ms bs
  | _, bs => bs

/-- Two values of equal length that differ only in the bits of `mask`. -/
structure DifferIn (mask : List UInt8) (bs cs : Bytes) : Prop where
  length_eq : bs.length = cs.length
  clear_eq : clearReserved mask bs = clearReserved mask cs

/-- A decoder gives the same verdict, and the same attribute, whatever the bits of `mask` are. -/
def IgnoresReserved {α : Type} (mask : List UInt8) (decode : Bytes → Option α) : Prop :=
  ∀ bs cs, DifferIn mask bs cs → decode bs = decode cs

theorem ignoresReserved_of_clear {α : Type} {mask : List UInt8} {decode : Bytes → Option α}
    (h : ∀ bs, decode (clearReserved mask bs) = decode bs) : IgnoresReserved mask decode := by
  intro bs cs hdiffer
  rw [← h bs, ← h cs, hdiffer.clear_eq]

@[simp] theorem clearReserved_nil (bs : Bytes) : clearReserved [] bs = bs := by
  cases bs <;> rfl

@[simp] theorem clearReserved_cons (m b : UInt8) (ms : List UInt8) (bs : Bytes) :
    clearReserved (m :: ms) (b :: bs) = (b &&& ~~~m) :: clearReserved ms bs := rfl

theorem and_complement_zero (b : UInt8) : b &&& ~~~0 = b := by
  apply UInt8.toBitVec_inj.1
  simp

theorem DifferIn.tail {m b c : UInt8} {ms : List UInt8} {bs cs : Bytes}
    (h : DifferIn (m :: ms) (b :: bs) (c :: cs)) : DifferIn ms bs cs :=
  ⟨Nat.succ.inj h.length_eq, (List.cons.inj h.clear_eq).2⟩

theorem DifferIn.head {b c : UInt8} {ms : List UInt8} {bs cs : Bytes}
    (h : DifferIn (0 :: ms) (b :: bs) (c :: cs)) : b = c := by
  have hclear := (List.cons.inj h.clear_eq).1
  rwa [and_complement_zero, and_complement_zero] at hclear

/-! ## The decoders that ignore them -/

theorem ErrorCodeAttr.decode_clear (bs : Bytes) :
    decode (clearReserved [0xFF, 0xFF, 0xF8] bs) = decode bs := by
  rcases bs with _ | ⟨b0, _ | ⟨b1, _ | ⟨b2, _ | ⟨num, reason⟩⟩⟩⟩
  · rfl
  · rfl
  · rfl
  · rfl
  · have hclass : b2 &&& ~~~0xF8 &&& 0x07 = b2 &&& 0x07 := by
      rw [UInt8.and_assoc]
      rfl
    simp only [clearReserved_cons, clearReserved_nil, decode, hclass]

theorem AddressErrorCodeAttr.decode_clear (bs : Bytes) :
    decode (clearReserved [0, 0xFF, 0x1F] bs) = decode bs := by
  rcases bs with _ | ⟨fam, _ | ⟨b1, _ | ⟨b2, _ | ⟨num, reason⟩⟩⟩⟩
  · rfl
  · rfl
  · rfl
  · rfl
  · have hclass : b2 &&& ~~~0x1F &&& 0xE0 = b2 &&& 0xE0 := by
      rw [UInt8.and_assoc]
      rfl
    simp only [clearReserved_cons, clearReserved_nil, and_complement_zero, decode, hclass]

theorem XorAddressAttrT.decode_clear {T : StunAttrType} (tid : TransactionId) (bs : Bytes) :
    (decode tid (clearReserved [0xFF] bs) : Option (XorAddressAttrT T)) = decode tid bs := by
  rcases bs with _ | ⟨b0, _ | ⟨b1, _ | ⟨b2, _ | ⟨b3, rest⟩⟩⟩⟩
  · rfl
  · rfl
  · rfl
  · rfl
  · rfl

theorem RequestedTransAttr.decode_clear (bs : Bytes) :
    decode (clearReserved [0, 0xFF, 0xFF, 0xFF] bs) = decode bs := by
  rcases bs with _ | ⟨b0, _ | ⟨b1, _ | ⟨b2, _ | ⟨b3, _ | ⟨b4, rest⟩⟩⟩⟩⟩
  · rfl
  · rfl
  · rfl
  · rfl
  · simp only [clearReserved_cons, clearReserved_nil, and_complement_zero, decode]
  · rfl

theorem EvenPortAttr.decode_clear (bs : Bytes) : decode (clearReserved [0x7F] bs) = decode bs := by
  cases bs with
  | nil => rfl
  | cons b0 rest =>
    have hbit : b0 &&& ~~~0x7F &&& 0x80 = b0 &&& 0x80 := by
      rw [UInt8.and_assoc]
      rfl
    simp only [clearReserved_cons, decode, hbit]

/-! ## The decoders that look at them -/

/-- Two verdicts that agree on the attribute, where both are positive, are the same exactly if both
are positive or both negative. -/
theorem eq_iff_of_agree {α : Type} {x y : Option α} (h : ∀ a b, x = some a → y = some b → a = b) :
    x = y ↔ ((∃ a, x = some a) ↔ ∃ b, y = some b) := by
  cases x with
  | none => simp [eq_comm, Option.eq_none_iff_forall_ne_some]
  | some a =>
    cases y with
    | none => simp
    | some b => simp [h a b rfl rfl]

/-- A value of CHANNEL-NUMBER's size with a channel in its range. -/
def NamesChannel (bs : Bytes) : Prop :=
  ∃ b0 b1 b2 b3, bs = [b0, b1, b2, b3] ∧ 0x4000 ≤ readBe16 b0 b1 ∧ readBe16 b0 b1 ≤ 0x7FFF

theorem NamesChannel.of_differ {bs cs : Bytes} (h : DifferIn [0, 0, 0xFF, 0xFF] bs cs)
    (hbs : NamesChannel bs) : NamesChannel cs ∧ cs.take 2 = bs.take 2 := by
  obtain ⟨b0, b1, b2, b3, rfl, hrange⟩ := hbs
  have hlen : cs.length = 4 := h.length_eq.symm
  obtain ⟨c0, c1, c2, c3, rest, rfl⟩ := exists_four hlen.ge
  obtain rfl : rest = [] := List.eq_nil_of_length_eq_zero (by simpa using hlen)
  obtain rfl := h.head
  obtain rfl := h.tail.head
  exact ⟨⟨b0, b1, c2, c3, rfl, hrange⟩, rfl⟩

theorem ChannelNumberAttr.decode_eq_some_iff {bs : Bytes} {a : ChannelNumberAttr} :
    decode bs = some a ↔ NamesChannel bs ∧ bs.drop 2 = [0, 0] ∧
      bs.take 2 = writeBe16 a.channelNumber := by
  constructor
  · intro h
    obtain ⟨hlo, hhi⟩ := range_of_decode h
    unfold decode at h
    split at h
    · next b0 b1 b2 b3 =>
      simp only [Option.ite_none_left_eq_some, Option.some.injEq, not_not] at h
      obtain ⟨-, hrffu, rfl⟩ := h
      have hzero := writeBe16_readBe16 b2 b3
      rw [hrffu] at hzero
      exact ⟨⟨b0, b1, b2, b3, rfl, hlo, hhi⟩, hzero.symm, (writeBe16_readBe16 b0 b1).symm⟩
    · cases h
  · rintro ⟨⟨b0, b1, b2, b3, rfl, hlo, hhi⟩, hdrop, htake⟩
    obtain ⟨channel⟩ := a
    have hchannel : readBe16 b0 b1 = channel := readBe16_of_writeBe16 htake.symm
    obtain ⟨rfl, rfl⟩ : b2 = 0 ∧ b3 = 0 := by simpa using hdrop
    rw [hchannel] at hlo hhi
    exact (congrArg decode (congrArg (· ++ [0, 0]) htake)).trans (decode_writeBe16 hlo hhi)

theorem ChannelNumberAttr.accepts_iff {bs : Bytes} :
    (∃ a, decode bs = some a) ↔ NamesChannel bs ∧ bs.drop 2 = [0, 0] := by
  constructor
  · rintro ⟨a, ha⟩
    obtain ⟨hnames, hrffu, -⟩ := decode_eq_some_iff.1 ha
    exact ⟨hnames, hrffu⟩
  · rintro ⟨hnames, hrffu⟩
    obtain ⟨b0, b1, b2, b3, rfl, -⟩ := id hnames
    exact ⟨⟨readBe16 b0 b1⟩,
      decode_eq_some_iff.2 ⟨hnames, hrffu, (writeBe16_readBe16 b0 b1).symm⟩⟩

/-- CHANNEL-NUMBER reads two values that differ in the reserved half alike exactly if they name no
channel, or the half is zero in both or in none. -/
theorem ChannelNumberAttr.decode_eq_iff {bs cs : Bytes}
    (h : DifferIn [0, 0, 0xFF, 0xFF] bs cs) :
    decode bs = decode cs ↔ (NamesChannel bs → (bs.drop 2 = [0, 0] ↔ cs.drop 2 = [0, 0])) := by
  have hback : DifferIn [0, 0, 0xFF, 0xFF] cs bs := ⟨h.length_eq.symm, h.clear_eq.symm⟩
  have hnames : NamesChannel bs ↔ NamesChannel cs :=
    ⟨fun hbs => (hbs.of_differ h).1, fun hcs => (hcs.of_differ hback).1⟩
  rw [eq_iff_of_agree, accepts_iff, accepts_iff, ← hnames, and_congr_right_iff]
  intro a b ha hb
  obtain ⟨hbs, -, htake⟩ := decode_eq_some_iff.1 ha
  obtain ⟨-, -, htake'⟩ := decode_eq_some_iff.1 hb
  have hchannel := writeBe16_inj (htake.symm.trans ((hbs.of_differ h).2.symm.trans htake'))
  exact congrArg ChannelNumberAttr.mk hchannel

/-- A value with one of the two families, and the number of one of the two codes behind its class in
the top three bits of the third byte. -/
def NamesAddressError (bs : Bytes) : Prop :=
  ∃ fam reserved b2 num reason, bs = fam :: reserved :: b2 :: num :: reason ∧
    (fam = 1 ∨ fam = 2) ∧ IsAddressError (b2 >>> 5) num

theorem AddressErrorCodeAttr.accepts_iff {bs : Bytes} :
    (∃ a, decode bs = some a) ↔ NamesAddressError bs := by
  constructor
  · rintro ⟨a, ha⟩
    have hlen := length_of_decode ha
    rw [length_wireValue] at hlen
    obtain ⟨fam, reserved, b2, num, reason, rfl⟩ := exists_four (Nat.le_of_add_right_le hlen)
    obtain ⟨hfam, herr, -⟩ := decode_cons_eq_some_iff.1 ha
    exact ⟨fam, reserved, b2, num, reason, rfl, hfam, herr⟩
  · rintro ⟨fam, reserved, b2, num, reason, rfl, hfam, herr⟩
    exact ⟨_, decode_cons_eq_some_iff.2 ⟨hfam, herr, rfl⟩⟩

/-- The class goes with the number. -/
theorem IsAddressError.class_eq {cls cls' num : UInt8} (h : IsAddressError cls num)
    (h' : IsAddressError cls' num) : cls = cls' := by
  rcases h with ⟨rfl, rfl⟩ | ⟨rfl, rfl⟩
  · rcases h' with ⟨rfl, -⟩ | ⟨-, hnum⟩
    · rfl
    · exact absurd hnum (by decide)
  · rcases h' with ⟨-, hnum⟩ | ⟨rfl, -⟩
    · exact absurd hnum (by decide)
    · rfl

/-- If the class stood where ERROR-CODE has it, 13 bits in front of it would be reserved. Two values
that differ in these are read alike exactly if both or none of them hold a code in the place that
ADDRESS-ERROR-CODE looks at. -/
theorem AddressErrorCodeAttr.decode_eq_iff {bs cs : Bytes} (h : DifferIn [0, 0xFF, 0xF8] bs cs) :
    decode bs = decode cs ↔ (NamesAddressError bs ↔ NamesAddressError cs) := by
  rw [eq_iff_of_agree, accepts_iff, accepts_iff]
  intro a b ha hb
  obtain ⟨fam, reserved, b2, num, reason, rfl, -⟩ := accepts_iff.1 ⟨a, ha⟩
  obtain ⟨fam', reserved', c2, num', reason', rfl, -⟩ := accepts_iff.1 ⟨b, hb⟩
  obtain rfl := h.head
  obtain ⟨rfl, rfl⟩ := List.cons.inj h.tail.tail.tail.clear_eq
  obtain ⟨-, herr, rfl⟩ := decode_cons_eq_some_iff.1 ha
  obtain ⟨-, herr', rfl⟩ := decode_cons_eq_some_iff.1 hb
  rw [herr.class_eq herr']

/-! ## All six -/

/-- **When reserved bits are ignored**: by every decoder but that of CHANNEL-NUMBER, where a channel
must come with a reserved half that is zero, or not zero, in both values. ADDRESS-ERROR-CODE ignores
the bits around its class; those that would be reserved if the class stood where ERROR-CODE has it
are not ignored. -/
theorem reserved_bits_ignored (T : StunAttrType) (tid : TransactionId) (bs cs : Bytes) :
    IgnoresReserved [0xFF, 0xFF, 0xF8] ErrorCodeAttr.decode ∧
    IgnoresReserved [0, 0xFF, 0x1F] AddressErrorCodeAttr.decode ∧
    IgnoresReserved [0xFF] (XorAddressAttrT.decode tid : Bytes → Option (XorAddressAttrT T)) ∧
    IgnoresReserved [0, 0xFF, 0xFF, 0xFF] RequestedTransAttr.decode ∧
    IgnoresReserved [0x7F] EvenPortAttr.decode ∧
    (DifferIn [0, 0, 0xFF, 0xFF] bs cs →
      (ChannelNumberAttr.decode bs = ChannelNumberAttr.decode cs ↔
        (NamesChannel bs → (bs.drop 2 = [0, 0] ↔ cs.drop 2 = [0, 0])))) ∧
    (DifferIn [0, 0xFF, 0xF8] bs cs →
      (AddressErrorCodeAttr.decode bs = AddressErrorCodeAttr.decode cs ↔
        (NamesAddressError bs ↔ NamesAddressError cs))) :=
  ⟨ignoresReserved_of_clear ErrorCodeAttr.decode_clear,
    ignoresReserved_of_clear AddressErrorCodeAttr.decode_clear,
    ignoresReserved_of_clear (XorAddressAttrT.decode_clear tid),
    ignoresReserved_of_clear RequestedTransAttr.decode_clear,
    ignoresReserved_of_clear EvenPortAttr.decode_clear,
    ChannelNumberAttr.decode_eq_iff, AddressErrorCodeAttr.decode_eq_iff⟩

/-- Channel 0x4000 is read from 40 00 00 00, but not from 40 00 00 01. -/
theorem rffu_not_ignored :
    DifferIn [0, 0, 0xFF, 0xFF] [0x40, 0x00, 0x00, 0x00] [0x40, 0x00, 0x00, 0x01] ∧
    ChannelNumberAttr.decode [0x40, 0x00, 0x00, 0x00] = some ⟨0x4000⟩ ∧
    ChannelNumberAttr.decode [0x40, 0x00, 0x00, 0x01] = none ∧
    ¬IgnoresReserved [0, 0, 0xFF, 0xFF] ChannelNumberAttr.decode := by
  have hdiffer : DifferIn [0, 0, 0xFF, 0xFF] [0x40, 0x00, 0x00, 0x00] [0x40, 0x00, 0x00, 0x01] :=
    ⟨rfl, rfl⟩
  refine ⟨hdiffer, rfl, rfl, fun hignores => ?_⟩
  cases hignores _ _ hdiffer

end Stunxx
