import Stunxx.Lib.Crc
import Mathlib.Dynamics.PeriodicPts.Defs
import Mathlib.Data.Nat.Prime.Basic
import Mathlib.Tactic.Ring

/-!
# The period of a check register

The bits of a register are the coefficients of a polynomial, the top bit that of one (`unit`), and a
shift multiplies by the unknown, modulo the polynomial of the check. So registers can be multiplied
(`mul`), and the register that `n` shifts make of `unit` is a power, which squaring finds for large
`n` (`power_eq`). With it the shifts after which `unit` returns are found: the multiples of a number
`N`, if `N` is one of them and no `N / q` is for a prime `q` (`bitSteps_unit_iff`).
-/

namespace Crc

variable {w : Nat} (p : BitVec w)

theorem xor_xor_xor_comm (a b u v : BitVec w) :
    (a ^^^ b) ^^^ (u ^^^ v) = (a ^^^ u) ^^^ (b ^^^ v) := by
  rw [BitVec.xor_assoc, ← BitVec.xor_assoc b, BitVec.xor_comm b, BitVec.xor_assoc u,
    ← BitVec.xor_assoc]

theorem bitSteps_succ (n : Nat) (c : BitVec w) :
    bitSteps p (n + 1) c = bitStep p (bitSteps p n c) := bitSteps_add p n 1 c

theorem bitSteps_comm (m n : Nat) (c : BitVec w) :
    bitSteps p m (bitSteps p n c) = bitSteps p n (bitSteps p m c) := by
  rw [← bitSteps_add, ← bitSteps_add, Nat.add_comm]

theorem bitSteps_zero_right (n : Nat) : bitSteps p n 0#w = 0#w := by
  have hxor := bitSteps_xor p n 0#w 0#w
  rwa [BitVec.xor_self, BitVec.xor_self] at hxor

/-! ## Products -/

/-- The register that stands for one. -/
def unit (w : Nat) : BitVec w := BitVec.twoPow w (w - 1)

/-- The product with `v` of the low `n` bits of `b`, taken for its leading ones. -/
def mulBits (b v : BitVec w) : Nat → BitVec w
  | 0 => 0#w
  | n + 1 => bitStep p (mulBits b v n) ^^^ (if b.getLsbD n then v else 0#w)

/-- The product of two registers. -/
def mul (b v : BitVec w) : BitVec w := mulBits p b v w

theorem mulBits_xor (a b v : BitVec w) (n : Nat) :
    mulBits p (a ^^^ b) v n = mulBits p a v n ^^^ mulBits p b v n := by
  induction n with
  | zero => exact BitVec.xor_self.symm
  | succ n ih =>
    rw [mulBits, mulBits, mulBits, ih, bitStep_xor, xor_xor_xor_comm, BitVec.getLsbD_xor]
    cases a.getLsbD n <;> cases b.getLsbD n <;> simp

/-- What is linear and commutes with a shift commutes with products. -/
theorem map_mulBits {f : BitVec w → BitVec w} (hxor : ∀ a b, f (a ^^^ b) = f a ^^^ f b)
    (hstep : ∀ a, f (bitStep p a) = bitStep p (f a)) (b v : BitVec w) (n : Nat) :
    f (mulBits p b v n) = mulBits p b (f v) n := by
  have hzero : f 0#w = 0#w := by
    have h := hxor 0#w 0#w
    rwa [BitVec.xor_self, BitVec.xor_self] at h
  induction n with
  | zero => exact hzero
  | succ n ih =>
    rw [mulBits, mulBits, hxor, hstep, ih]
    cases b.getLsbD n
    · simp [hzero]
    · simp

theorem bitSteps_mul (n : Nat) (b v : BitVec w) :
    bitSteps p n (mul p b v) = mul p b (bitSteps p n v) :=
  map_mulBits p (bitSteps_xor p n) (fun a => bitSteps_comm p n 1 a) b v w

theorem mulBits_xor_right (b u v : BitVec w) (n : Nat) :
    mulBits p b (u ^^^ v) n = mulBits p b u n ^^^ mulBits p b v n := by
  induction n with
  | zero => exact BitVec.xor_self.symm
  | succ n ih =>
    rw [mulBits, mulBits, mulBits, ih, bitStep_xor, xor_xor_xor_comm]
    cases b.getLsbD n <;> simp

/-- The factors of a product of three can be taken in any order. -/
theorem mul_left_comm (a b v : BitVec w) : mul p a (mul p b v) = mul p b (mul p a v) :=
  map_mulBits p (fun u v => mulBits_xor_right p a u v w) (fun u => (bitSteps_mul p 1 a u).symm)
    b v w

/-- A shift of a factor leaves its lowest bit to be added after all others. -/
theorem mulBits_succ (b v : BitVec w) (n : Nat) :
    mulBits p b v (n + 1) =
      mulBits p (b >>> 1) v n ^^^ (if b.getLsbD 0 then bitSteps p n v else 0#w) := by
  induction n with
  | zero =>
    have hzero : bitStep p 0#w = 0#w := bitSteps_zero_right p 1
    rw [mulBits, mulBits, mulBits, hzero]
    rfl
  | succ n ih =>
    have hlow : bitStep p (if b.getLsbD 0 then bitSteps p n v else 0#w) =
        if b.getLsbD 0 then bitSteps p (n + 1) v else 0#w := by
      cases b.getLsbD 0
      · exact bitSteps_zero_right p 1
      · exact (bitSteps_succ p n v).symm
    rw [mulBits, ih, mulBits, bitStep_xor, hlow, BitVec.getLsbD_ushiftRight, Nat.add_comm 1,
      BitVec.xor_assoc, BitVec.xor_assoc,
      BitVec.xor_comm (if b.getLsbD (n + 1) = true then _ else _)]

/-! ## One and its powers -/

section Unit

variable (hw : 0 < w)

include hw

theorem getLsbD_unit (i : Nat) : (unit w).getLsbD i = decide (i = w - 1) := by
  rw [unit, BitVec.getLsbD_twoPow]
  by_cases h : i = w - 1
  · simp [h, hw]
  · simp [h, Ne.symm h]

/-- The low `n` bits of a register, moved to the top, are their product with one. -/
theorem mulBits_unit (b : BitVec w) {n : Nat} (hn : n ≤ w) :
    mulBits p b (unit w) n = b <<< (w - n) := by
  induction n with
  | zero => simp [mulBits, BitVec.shiftLeft_eq_zero]
  | succ n ih =>
    have hlow : (b <<< (w - n)).getLsbD 0 = false := by
      rw [BitVec.getLsbD_shiftLeft]
      simp [show 0 < w - n by omega]
    rw [mulBits, ih (by omega), bitStep, if_neg (by simp [hlow])]
    apply BitVec.eq_of_getLsbD_eq
    intro i hi
    have hbit : (if b.getLsbD n = true then unit w else 0#w).getLsbD i =
        (decide (i = w - 1) && b.getLsbD n) := by
      cases b.getLsbD n <;> simp [getLsbD_unit hw]
    rw [BitVec.getLsbD_xor, BitVec.getLsbD_ushiftRight, BitVec.getLsbD_shiftLeft,
      BitVec.getLsbD_shiftLeft, hbit]
    by_cases hlast : i = w - 1
    · have hout : ¬1 + i < w := by omega
      have hin : ¬i < w - (n + 1) := by omega
      have hplace : i - (w - (n + 1)) = n := by omega
      rw [hplace, decide_eq_false hout, decide_eq_true hlast, decide_eq_true hi,
        decide_eq_false hin]
      simp
    · have hiff : 1 + i < w - n ↔ i < w - (n + 1) := by omega
      have hin : 1 + i < w := by omega
      have hplace : 1 + i - (w - n) = i - (w - (n + 1)) := by omega
      rw [hplace, decide_eq_false hlast, decide_eq_true hi, decide_eq_true hin]
      simp only [hiff]
      simp

theorem mul_unit (b : BitVec w) : mul p b (unit w) = b := by
  have h := mulBits_unit p hw b (Nat.le_refl w)
  rwa [Nat.sub_self, BitVec.shiftLeft_zero] at h

/-- One bit that is alone in a register is a power. -/
theorem bitSteps_unit {n : Nat} (hn : n < w) :
    bitSteps p n (unit w) = BitVec.twoPow w (w - 1 - n) := by
  have hlow : ∀ i < n, (unit w).getLsbD i = false := by
    intro i hi
    rw [getLsbD_unit hw]
    exact decide_eq_false (by omega)
  rw [bitSteps_of_low p hlow]
  apply BitVec.eq_of_getLsbD_eq
  intro i hi
  have hin : w - 1 - n < w := by omega
  have hiff : n + i = w - 1 ↔ w - 1 - n = i := by omega
  rw [BitVec.getLsbD_ushiftRight, getLsbD_unit hw, BitVec.getLsbD_twoPow, decide_eq_true hin,
    Bool.true_and]
  exact decide_eq_decide.2 hiff

/-- When the bit falls out, the polynomial is left. -/
theorem bitSteps_width_unit : bitSteps p w (unit w) = p := by
  obtain ⟨n, rfl⟩ := Nat.exists_eq_succ_of_ne_zero hw.ne'
  have hone := bitSteps_unit p hw (n := n) n.lt_succ_self
  rw [Nat.succ_sub_one, Nat.sub_self] at hone
  have hbit : (BitVec.twoPow (n + 1) 0).getLsbD 0 = true := by simp
  have hshift : BitVec.twoPow (n + 1) 0 >>> 1 = 0#(n + 1) := by
    apply BitVec.eq_of_getLsbD_eq
    intro i hi
    rw [BitVec.getLsbD_ushiftRight, BitVec.getLsbD_twoPow]
    simp [show ¬0 = 1 + i by omega]
  rw [bitSteps_succ, hone, bitStep, if_pos hbit, hshift, BitVec.zero_xor]

/-- The product with the polynomial is `w` shifts. -/
theorem mul_poly (v : BitVec w) : mul p p v = bitSteps p w v := by
  have hleft : mul p p v = mul p v p := by
    conv => lhs; rw [← mul_unit p hw v]
    rw [mul_left_comm, mul_unit p hw]
  have hright : bitSteps p w v = mul p v p := by
    conv => lhs; rw [← mul_unit p hw v]
    rw [bitSteps_mul, bitSteps_width_unit p hw]
  rw [hleft, hright]

/-- A shift of a factor is one of the product. -/
theorem bitStep_mul (b v : BitVec w) : mul p (bitStep p b) v = bitStep p (mul p b v) := by
  have hlast : mulBits p b v (w + 1) = bitStep p (mul p b v) := by
    have hout : b.getLsbD w = false := BitVec.getLsbD_of_ge b w (Nat.le_refl w)
    rw [mulBits, hout, if_neg Bool.false_ne_true, BitVec.xor_zero, mul]
  rw [← hlast, mulBits_succ, bitStep]
  cases b.getLsbD 0 with
  | true => rw [if_pos rfl, if_pos rfl, mul, mulBits_xor, ← mul_poly p hw, mul]
  | false =>
    rw [if_neg Bool.false_ne_true, if_neg Bool.false_ne_true, BitVec.xor_zero, mul]

/-- **Powers are shifts.** -/
theorem bitSteps_unit_mul (n : Nat) (v : BitVec w) :
    mul p (bitSteps p n (unit w)) v = bitSteps p n v := by
  induction n with
  | zero =>
    have hone := mul_left_comm p (unit w) v (unit w)
    rwa [mul_unit p hw, mul_unit p hw, mul_unit p hw] at hone
  | succ n ih => rw [bitSteps_succ, bitStep_mul p hw, ih, bitSteps_succ]

theorem bitSteps_add_unit (m n : Nat) :
    bitSteps p (m + n) (unit w) =
      mul p (bitSteps p m (unit w)) (bitSteps p n (unit w)) := by
  rw [bitSteps_unit_mul p hw, bitSteps_add, bitSteps_comm]

end Unit

/-! ## Large powers -/

/-- `f n`, where `n` is evaluated first. -/
def eagerly {α : Type*} (n : Nat) (f : Nat → α) : α :=
  match n with
  | 0 => f 0
  | k + 1 => f (k + 1)

theorem eagerly_eq {α : Type*} (n : Nat) (f : Nat → α) : eagerly n f = f n := by
  cases n <;> rfl

/-- Go on from a power by the low `k` bits of `n`, the highest first. -/
def powerFrom (n : Nat) : Nat → BitVec w → BitVec w
  | 0, c => c
  | k + 1, c =>
    eagerly (if n.testBit k then bitStep p (mul p c c) else mul p c c).toNat fun s =>
      powerFrom n k (BitVec.ofNat w s)

/-- The register that `n` shifts make of one, for `n` of at most `k` bits. -/
def power (k n : Nat) : BitVec w := powerFrom p n k (unit w)

theorem powerFrom_eq (hw : 0 < w) (n k m : Nat) :
    powerFrom p n k (bitSteps p m (unit w)) = bitSteps p (m * 2 ^ k + n % 2 ^ k) (unit w) := by
  induction k generalizing m with
  | zero => rw [powerFrom, Nat.pow_zero, Nat.mul_one, Nat.mod_one, Nat.add_zero]
  | succ k ih =>
    have hsquare : (if n.testBit k then
          bitStep p (mul p (bitSteps p m (unit w)) (bitSteps p m (unit w)))
        else mul p (bitSteps p m (unit w)) (bitSteps p m (unit w))) =
        bitSteps p (m + m + (n.testBit k).toNat) (unit w) := by
      rw [← bitSteps_add_unit p hw]
      cases n.testBit k
      · rfl
      · exact (bitSteps_succ p (m + m) (unit w)).symm
    have hexp : (m + m + (n.testBit k).toNat) * 2 ^ k + n % 2 ^ k =
        m * 2 ^ (k + 1) + n % 2 ^ (k + 1) := by
      rw [Nat.mod_pow_succ, ← Nat.toNat_testBit, Nat.pow_succ]
      ring
    rw [powerFrom, eagerly_eq, hsquare, BitVec.ofNat_toNat, BitVec.setWidth_eq, ih, hexp]

theorem power_eq (hw : 0 < w) {k n : Nat} (hn : n < 2 ^ k) :
    power p k n = bitSteps p n (unit w) := by
  have h := powerFrom_eq p hw n k 0
  rwa [Nat.zero_mul, Nat.zero_add, Nat.mod_eq_of_lt hn] at h

/-! ## The period -/

theorem iterate_bitStep (n : Nat) (c : BitVec w) : (bitStep p)^[n] c = bitSteps p n c := by
  induction n generalizing c with
  | zero => rfl
  | succ n ih => rw [Function.iterate_succ_apply, ih, bitSteps]

/-- A number that every multiple of a period divides is told by its prime divisors. -/
theorem minimalPeriod_eq {α : Type*} {f : α → α} {x : α} {N : Nat}
    (hperiod : Function.IsPeriodicPt f N x)
    (hprime : ∀ q, q.Prime → q ∣ N → ¬Function.IsPeriodicPt f (N / q) x) :
    Function.minimalPeriod f x = N := by
  obtain ⟨k, hk⟩ := hperiod.minimalPeriod_dvd
  by_contra hne
  have hone : k ≠ 1 := by
    rintro rfl
    exact hne (hk.trans (Nat.mul_one _)).symm
  obtain ⟨q, hq, j, rfl⟩ := Nat.exists_prime_and_dvd hone
  refine hprime q hq ⟨Function.minimalPeriod f x * j, by rw [hk]; ring⟩ ?_
  have hdiv : N / q = Function.minimalPeriod f x * j := by
    rw [hk, Nat.mul_left_comm, Nat.mul_div_cancel_left _ hq.pos]
  rw [hdiv]
  exact Function.isPeriodicPt_iff_minimalPeriod_dvd.2 (Nat.dvd_mul_right _ j)

/-- **The shifts after which one returns** are the multiples of `N`, if `N` is one of them and no
`N / q` is. -/
theorem bitSteps_unit_iff {N : Nat} (hperiod : bitSteps p N (unit w) = unit w)
    (hprime : ∀ q, q.Prime → q ∣ N → bitSteps p (N / q) (unit w) ≠ unit w) {n : Nat} :
    bitSteps p n (unit w) = unit w ↔ N ∣ n := by
  have hiff : ∀ m, Function.IsPeriodicPt (bitStep p) m (unit w) ↔
      bitSteps p m (unit w) = unit w := by
    intro m
    rw [Function.IsPeriodicPt, Function.IsFixedPt, iterate_bitStep]
  have hmin := minimalPeriod_eq ((hiff N).2 hperiod) fun q hq hdvd h =>
    hprime q hq hdvd ((hiff _).1 h)
  rw [← hiff, Function.isPeriodicPt_iff_minimalPeriod_dvd, hmin]

end Crc
