import Stunxx.Lib.CrcPeriod

/-!
# Flipped bits

A message is a stream of bits, the lowest of every byte first, and a register takes them one by one
(`absorbAll_eq_absorbBits`). Registers that two messages of one length leave differ by what their
difference makes of zero (`absorbBits_xor`), so only the places of the flipped bits count. One bit
is always noticed. Two are noticed unless the shifts from one to the other are a multiple of the
period (`absorbAll_eq_iff_of_two_flips`), so in a message that is no longer than the period at most
two flipped bits are always noticed (`eq_of_flips`).
-/

namespace Crc

variable {w : Nat} (p : BitVec w)

/-- The bits of a byte, the lowest first. -/
def toBits (b : UInt8) : List Bool := (List.range 8).map b.toBitVec.getLsbD

/-- The bits of a message. -/
def streamBits (bs : List UInt8) : List Bool := bs.flatMap toBits

/-- Where the bits of two messages differ. -/
def difference (xs ys : List UInt8) : List Bool :=
  List.zipWith Bool.xor (streamBits xs) (streamBits ys)

/-- In how many bits two messages differ. -/
def flips (xs ys : List UInt8) : Nat := (difference xs ys).count true

/-- One bit of a message. -/
def absorbBit (c : BitVec w) (b : Bool) : BitVec w := bitStep p (c ^^^ if b then 1#w else 0#w)

/-- A stream of bits. -/
def absorbBits (c : BitVec w) (bs : List Bool) : BitVec w := bs.foldl (absorbBit p) c

theorem absorbBits_append (c : BitVec w) (bs cs : List Bool) :
    absorbBits p c (bs ++ cs) = absorbBits p (absorbBits p c bs) cs := List.foldl_append

/-! ## Counting -/

theorem length_toBits (b : UInt8) : (toBits b).length = 8 := by
  rw [toBits, List.length_map, List.length_range]

theorem toBits_xor (a b : UInt8) :
    List.zipWith Bool.xor (toBits a) (toBits b) = toBits (a ^^^ b) := by
  simp [toBits]

theorem streamBits_cons (b : UInt8) (bs : List UInt8) :
    streamBits (b :: bs) = toBits b ++ streamBits bs := List.flatMap_cons

theorem streamBits_append (xs ys : List UInt8) :
    streamBits (xs ++ ys) = streamBits xs ++ streamBits ys := List.flatMap_append

theorem length_streamBits (bs : List UInt8) : (streamBits bs).length = 8 * bs.length := by
  induction bs with
  | nil => rfl
  | cons b bs ih =>
    rw [streamBits_cons, List.length_append, length_toBits, ih, List.length_cons, Nat.mul_succ,
      Nat.add_comm]

theorem length_streamBits_congr {xs ys : List UInt8} (hlen : xs.length = ys.length) :
    (streamBits xs).length = (streamBits ys).length := by
  rw [length_streamBits, length_streamBits, hlen]

theorem length_difference {xs ys : List UInt8} (hlen : xs.length = ys.length) :
    (difference xs ys).length = 8 * xs.length := by
  rw [difference, List.length_zipWith, length_streamBits, length_streamBits, hlen, Nat.min_self]

theorem getElem?_difference {xs ys : List UInt8} (hlen : xs.length = ys.length) {i : Nat} :
    (difference xs ys)[i]? = some true ↔ ¬(streamBits xs)[i]? = (streamBits ys)[i]? := by
  have hstream := length_streamBits_congr hlen
  rw [difference, List.getElem?_zipWith]
  by_cases hi : i < (streamBits xs).length
  · rw [List.getElem?_eq_getElem hi, List.getElem?_eq_getElem (hstream ▸ hi)]
    cases (streamBits xs)[i] <;> cases (streamBits ys)[i] <;> decide
  · rw [List.getElem?_eq_none (Nat.le_of_not_lt hi),
      List.getElem?_eq_none (hstream ▸ Nat.le_of_not_lt hi)]
    decide

theorem difference_append {xs ys : List UInt8} (hlen : xs.length = ys.length)
    (us vs : List UInt8) :
    difference (xs ++ us) (ys ++ vs) = difference xs ys ++ difference us vs := by
  rw [difference, streamBits_append, streamBits_append,
    List.zipWith_append (length_streamBits_congr hlen)]
  rfl

theorem difference_singleton (x y : UInt8) : difference [x] [y] = toBits (x ^^^ y) := by
  rw [← toBits_xor, difference, streamBits, streamBits, List.flatMap_singleton,
    List.flatMap_singleton]

theorem flips_append {xs ys : List UInt8} (hlen : xs.length = ys.length) (us vs : List UInt8) :
    flips (xs ++ us) (ys ++ vs) = flips xs ys + flips us vs := by
  rw [flips, difference_append hlen, List.count_append, flips, flips]

theorem flips_cons (x y : UInt8) (xs ys : List UInt8) :
    flips (x :: xs) (y :: ys) = flips [x] [y] + flips xs ys :=
  @flips_append [x] [y] rfl xs ys

theorem flips_self (xs : List UInt8) : flips xs xs = 0 := by
  rw [flips, difference, List.count_eq_zero, List.zipWith_self, List.mem_map]
  rintro ⟨b, -, hb⟩
  cases b <;> cases hb

/-- The order of the bytes does not count. -/
theorem flips_reverse {xs ys : List UInt8} (hlen : xs.length = ys.length) :
    flips xs.reverse ys.reverse = flips xs ys := by
  induction xs generalizing ys with
  | nil =>
    obtain rfl := List.length_eq_zero_iff.1 hlen.symm
    rfl
  | cons x xs ih =>
    cases ys with
    | nil => cases hlen
    | cons y ys =>
      have htail : xs.length = ys.length := Nat.succ.inj hlen
      have hcons := flips_cons x y xs ys
      rw [List.reverse_cons, List.reverse_cons, flips_append (by simp [htail]), ih htail, hcons,
        Nat.add_comm]

theorem eq_of_flips_eq_zero {xs ys : List UInt8} (hlen : xs.length = ys.length)
    (h : flips xs ys = 0) : xs = ys := by
  induction xs generalizing ys with
  | nil => exact (List.length_eq_zero_iff.1 hlen.symm).symm
  | cons x xs ih =>
    cases ys with
    | nil => cases hlen
    | cons y ys =>
      rw [flips_cons, Nat.add_eq_zero_iff] at h
      obtain ⟨hhead, htail⟩ := h
      rw [flips, difference_singleton, List.count_eq_zero, toBits, List.mem_map] at hhead
      have hbits : (x ^^^ y).toBitVec = 0#8 := by
        apply BitVec.eq_of_getLsbD_eq
        intro i hi
        rw [BitVec.getLsbD_zero, ← Bool.not_eq_true]
        exact fun hbit => hhead ⟨i, List.mem_range.2 hi, hbit⟩
      have hzero : x ^^^ y = 0 := UInt8.toBitVec_inj.1 hbits
      rw [UInt8.xor_eq_zero_iff.1 hzero, ih (Nat.succ.inj hlen) htail]

/-- Up to the first bit that is set. -/
theorem exists_of_count_succ {d : List Bool} {n : Nat} (h : d.count true = n + 1) :
    ∃ k rest, d = List.replicate k false ++ true :: rest ∧ rest.count true = n := by
  induction d with
  | nil => cases h
  | cons b d ih =>
    cases b with
    | true =>
      rw [List.count_cons_self, Nat.add_right_cancel_iff] at h
      exact ⟨0, d, rfl, h⟩
    | false =>
      rw [List.count_cons_of_ne (by decide)] at h
      obtain ⟨k, rest, rfl, hrest⟩ := ih h
      exact ⟨k + 1, rest, rfl, hrest⟩

/-- It is there or behind. -/
theorem place_of_flip {k n : Nat} {rest : List Bool}
    (h : (List.replicate k false ++ true :: rest)[n]? = some true) :
    n = k ∨ ∃ m, n = k + 1 + m ∧ rest[m]? = some true := by
  obtain hlt | rfl | hgt := Nat.lt_trichotomy n k
  · rw [List.getElem?_append_left (by simp [hlt]), List.getElem?_replicate, if_pos hlt] at h
    cases h
  · exact .inl rfl
  · obtain ⟨m, rfl⟩ := Nat.exists_eq_add_of_lt hgt
    refine .inr ⟨m, by omega, ?_⟩
    rwa [List.getElem?_append_right (by simp; omega), List.length_replicate, Nat.add_assoc,
      Nat.add_sub_cancel_left, List.getElem?_cons_succ] at h

theorem eq_replicate_of_count_eq_zero {d : List Bool} (h : d.count true = 0) :
    d = List.replicate d.length false := by
  refine List.eq_replicate_iff.2 ⟨rfl, fun b hb => ?_⟩
  rw [List.count_eq_zero] at h
  exact Bool.eq_false_of_not_eq_true fun htrue => h (htrue ▸ hb)

/-! ## A byte is eight bits -/

/-- The lowest bit is absorbed, the others move down. -/
theorem bitStep_xor_eq (c v : BitVec w) :
    bitStep p (c ^^^ v) = absorbBit p c (v.getLsbD 0) ^^^ v >>> 1 := by
  generalize hl : (if v.getLsbD 0 then 1#w else 0#w) = l
  have hbit : ∀ i < w, l.getLsbD i = (decide (i = 0) && v.getLsbD 0) := by
    intro i hi
    rw [← hl]
    cases v.getLsbD 0 <;> simp [hi]
  have hrest : bitStep p (l ^^^ v) = v >>> 1 := by
    rw [bitStep, if_neg]
    · apply BitVec.eq_of_getLsbD_eq
      intro i hi
      by_cases hin : 1 + i < w
      · simp [hbit _ hin]
      · simp [BitVec.getLsbD_of_ge, Nat.le_of_not_lt hin]
    · by_cases hw : 0 < w
      · simp [hbit 0 hw]
      · simp [BitVec.getLsbD_of_ge, Nat.le_of_not_lt hw]
  have hsplit : c ^^^ v = (c ^^^ l) ^^^ (l ^^^ v) := by
    rw [BitVec.xor_assoc, ← BitVec.xor_assoc l, BitVec.xor_self, BitVec.zero_xor]
  rw [hsplit, bitStep_xor, hrest, absorbBit, hl]

theorem bitSteps_xor_eq (n : Nat) (c v : BitVec w) :
    bitSteps p n (c ^^^ v) =
      absorbBits p c ((List.range n).map v.getLsbD) ^^^ v >>> n := by
  induction n with
  | zero => rw [BitVec.ushiftRight_zero]; rfl
  | succ n ih =>
    rw [bitSteps_succ, ih, bitStep_xor_eq, BitVec.getLsbD_ushiftRight, ← BitVec.shiftRight_add,
      List.range_succ, List.map_append, absorbBits_append]
    rfl

theorem absorb_eq_absorbBits (hw : 8 ≤ w) (c : BitVec w) (b : UInt8) :
    absorb p c b = absorbBits p c (toBits b) := by
  have hout : byteBits w b >>> 8 = 0#w := by
    apply BitVec.eq_of_getLsbD_eq
    intro i hi
    simp [byteBits, BitVec.getLsbD_of_ge]
  have hbits : (List.range 8).map (byteBits w b).getLsbD = toBits b := by
    apply List.map_congr_left
    intro i hi
    have hin : i < w := (List.mem_range.1 hi).trans_le hw
    rw [byteBits, BitVec.getLsbD_setWidth, decide_eq_true hin, Bool.true_and]
  rw [absorb, bitSteps_xor_eq, hout, hbits, BitVec.xor_zero]

theorem absorbAll_eq_absorbBits (hw : 8 ≤ w) (c : BitVec w) (bs : List UInt8) :
    absorbAll p c bs = absorbBits p c (streamBits bs) := by
  induction bs generalizing c with
  | nil => rfl
  | cons b bs ih =>
    rw [absorbAll_cons, ih, absorb_eq_absorbBits p hw, streamBits_cons, absorbBits_append]

/-! ## Differences -/

/-- What two streams leave differs by what their difference leaves. -/
theorem absorbBits_xor {xs ys : List Bool} (hlen : xs.length = ys.length) (a b : BitVec w) :
    absorbBits p a xs ^^^ absorbBits p b ys =
      absorbBits p (a ^^^ b) (List.zipWith Bool.xor xs ys) := by
  induction xs generalizing ys a b with
  | nil =>
    obtain rfl := List.length_eq_zero_iff.1 hlen.symm
    rfl
  | cons x xs ih =>
    cases ys with
    | nil => cases hlen
    | cons y ys =>
      have hone : absorbBit p a x ^^^ absorbBit p b y = absorbBit p (a ^^^ b) (x.xor y) := by
        rw [absorbBit, absorbBit, absorbBit, ← bitStep_xor, xor_xor_xor_comm]
        cases x <;> cases y <;> simp
      rw [List.zipWith_cons_cons, absorbBits, absorbBits, absorbBits, List.foldl_cons,
        List.foldl_cons, List.foldl_cons, ← hone]
      exact ih (Nat.succ.inj hlen) _ _

/-- Messages leave one register when their difference leaves zero. -/
theorem absorbAll_eq_iff (hw : 8 ≤ w) {xs ys : List UInt8} (hlen : xs.length = ys.length)
    (c : BitVec w) :
    absorbAll p c xs = absorbAll p c ys ↔ absorbBits p 0#w (difference xs ys) = 0#w := by
  rw [absorbAll_eq_absorbBits p hw, absorbAll_eq_absorbBits p hw, ← BitVec.xor_eq_zero_iff,
    absorbBits_xor p (length_streamBits_congr hlen), BitVec.xor_self, difference]

/-- Where nothing differs, the register is shifted. -/
theorem absorbBits_replicate_false (n : Nat) (c : BitVec w) :
    absorbBits p c (List.replicate n false) = bitSteps p n c := by
  induction n generalizing c with
  | zero => rfl
  | succ n ih =>
    rw [List.replicate_succ, absorbBits, List.foldl_cons, ← absorbBits, ih, bitSteps, absorbBit,
      if_neg Bool.false_ne_true, BitVec.xor_zero]

/-- A flipped bit, after some that are not. -/
theorem absorbBits_flip (k : Nat) (rest : List Bool) (c : BitVec w) :
    absorbBits p c (List.replicate k false ++ true :: rest) =
      absorbBits p (bitStep p (bitSteps p k c ^^^ 1#w)) rest := by
  rw [absorbBits_append, absorbBits_replicate_false, absorbBits, List.foldl_cons, ← absorbBits,
    absorbBit, if_pos rfl]

section Flips

variable {p} (hp : p.msb = true) {N : Nat}
  (hperiod : ∀ n, bitSteps p n (unit w) = unit w ↔ N ∣ n)

include hp

theorem one_ne_zero_of_msb : 1#w ≠ 0#w := by
  intro h
  cases w with
  | zero => rw [BitVec.msb_of_zero_length rfl] at hp; cases hp
  | succ n => exact absurd h (by simp)

/-- One flipped bit is noticed. -/
theorem absorbBits_ne_zero_of_flip {d : List Bool} (h : d.count true = 1) :
    absorbBits p 0#w d ≠ 0#w := by
  obtain ⟨k, rest, rfl, hrest⟩ := exists_of_count_succ h
  rw [absorbBits_flip, eq_replicate_of_count_eq_zero hrest, absorbBits_replicate_false,
    bitSteps_zero_right, BitVec.zero_xor]
  intro hzero
  rw [← bitSteps_zero_right p rest.length] at hzero
  exact one_ne_zero_of_msb hp (eq_zero_of_bitStep hp (bitSteps_injective hp _ hzero))

include hperiod

/-- Two flipped bits are missed when the shifts from one to the other are a multiple of the
period. -/
theorem absorbBits_two_flips (hw : 0 < w) (k l m : Nat) :
    absorbBits p 0#w (List.replicate k false ++ true ::
      (List.replicate l false ++ true :: List.replicate m false)) = 0#w ↔ N ∣ l + 1 := by
  have hone : bitSteps p (w - 1) (unit w) = 1#w := by
    rw [bitSteps_unit p hw (by omega), Nat.sub_self, BitVec.twoPow_zero]
  have hzero : bitSteps p (m + 1) (bitSteps p (l + 1) 1#w ^^^ 1#w) = 0#w ↔
      bitSteps p (l + 1) 1#w = 1#w := by
    constructor
    · intro h
      rw [← bitSteps_zero_right p (m + 1)] at h
      exact BitVec.xor_eq_zero_iff.1 (bitSteps_injective hp _ h)
    · intro h
      rw [h, BitVec.xor_self, bitSteps_zero_right]
  rw [absorbBits_flip, absorbBits_flip, absorbBits_replicate_false, bitSteps_zero_right,
    BitVec.zero_xor, ← bitSteps, ← bitSteps, hzero, ← hone, bitSteps_comm, ← hperiod]
  exact ⟨bitSteps_injective hp _, congrArg _⟩

/-- **Two flipped bits** are missed when their distance is a multiple of the period. -/
theorem absorbAll_eq_iff_of_two_flips (hw : 8 ≤ w) {xs ys : List UInt8}
    (hlen : xs.length = ys.length) (hflips : flips xs ys = 2) {i j : Nat} (hij : i < j)
    (hi : (streamBits xs)[i]? ≠ (streamBits ys)[i]?)
    (hj : (streamBits xs)[j]? ≠ (streamBits ys)[j]?) (c : BitVec w) :
    absorbAll p c xs = absorbAll p c ys ↔ N ∣ j - i := by
  rw [ne_eq, ← getElem?_difference hlen] at hi hj
  rw [absorbAll_eq_iff p hw hlen]
  rw [flips] at hflips
  generalize difference xs ys = d at hflips hi hj ⊢
  obtain ⟨k, rest, rfl, hrest⟩ := exists_of_count_succ hflips
  obtain ⟨l, last, rfl, hlast⟩ := exists_of_count_succ hrest
  have hplaces : ∀ n, (List.replicate k false ++ true ::
      (List.replicate l false ++ true :: last))[n]? = some true → n = k ∨ n = k + 1 + l := by
    intro n hn
    obtain hk | ⟨m, rfl, hm⟩ := place_of_flip hn
    · exact .inl hk
    obtain hl | ⟨_, -, hbehind⟩ := place_of_flip hm
    · exact .inr (congrArg _ hl)
    · exact absurd (List.mem_of_getElem? hbehind) (List.count_eq_zero.1 hlast)
  have hdist : j - i = l + 1 := by
    have hi := hplaces i hi
    have hj := hplaces j hj
    omega
  rw [eq_replicate_of_count_eq_zero hlast, absorbBits_two_flips hp hperiod (by omega), hdist]

/-- **At most two flipped bits are noticed** in messages that are no longer than the period. -/
theorem eq_of_flips (hw : 8 ≤ w) {xs ys : List UInt8} (hlen : xs.length = ys.length)
    (hshort : 8 * xs.length ≤ N) (hflips : flips xs ys ≤ 2) {c : BitVec w}
    (h : absorbAll p c xs = absorbAll p c ys) : xs = ys := by
  rw [absorbAll_eq_iff p hw hlen] at h
  have hsize := length_difference hlen
  apply eq_of_flips_eq_zero hlen
  rw [flips] at hflips ⊢
  generalize difference xs ys = d at h hsize hflips ⊢
  by_contra hne
  obtain hone | htwo : d.count true = 1 ∨ d.count true = 2 := by omega
  · exact absorbBits_ne_zero_of_flip hp hone h
  · obtain ⟨k, rest, rfl, hrest⟩ := exists_of_count_succ htwo
    obtain ⟨l, last, rfl, hlast⟩ := exists_of_count_succ hrest
    rw [eq_replicate_of_count_eq_zero hlast, absorbBits_two_flips hp hperiod (by omega)] at h
    have hle := Nat.le_of_dvd l.succ_pos h
    simp at hsize
    omega

end Flips

end Crc
