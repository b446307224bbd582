import Stunxx.Lib.Digits
import Mathlib.Logic.Function.Iterate
import Mathlib.Data.Fintype.EquivFin

/-!
# Reflected cyclic redundancy checks

A register of width `w` is shifted right bit by bit, and the polynomial is added whenever a one
falls out (`bitStep`); a byte is added into the low end and eight bits are shifted out (`absorb`).
A shift is linear (`bitStep_xor`), so eight of them are a look-up of the low byte in a table of 256
registers (`absorb_eq_table`), and `8 * n` of them absorb the number that `n` bytes spell
(`absorbAll_eq`). If the polynomial has its top bit, a shift loses nothing (`bitStep_injective`):
messages that differ only inside a window of at most `w` bits end in different registers
(`absorbAll_ne_of_window`), and a window of `w` bits can be filled to end in any register
(`existsUnique_window`).
-/

namespace Crc

open Digits

variable {w : Nat} (p : BitVec w)

/-- One bit. -/
def bitStep (c : BitVec w) : BitVec w := if c.getLsbD 0 then (c >>> 1) ^^^ p else c >>> 1

/-- `n` bits, one after the other. -/
def bitSteps : Nat → BitVec w → BitVec w
  | 0, c => c
  | n + 1, c => bitSteps n (bitStep p c)

/-- The bits of a byte. -/
def byteBits (w : Nat) (b : UInt8) : BitVec w := b.toBitVec.setWidth w

/-- One byte. -/
def absorb (c : BitVec w) (b : UInt8) : BitVec w := bitSteps p 8 (c ^^^ byteBits w b)

/-- A message. -/
def absorbAll (c : BitVec w) (bs : List UInt8) : BitVec w := bs.foldl (absorb p) c

theorem bitSteps_add (m n : Nat) (c : BitVec w) :
    bitSteps p (m + n) c = bitSteps p n (bitSteps p m c) := by
  induction m generalizing c with
  | zero => rw [Nat.zero_add, bitSteps]
  | succ m ih => rw [Nat.succ_add, bitSteps, bitSteps, ih]

theorem absorbAll_cons (c : BitVec w) (b : UInt8) (bs : List UInt8) :
    absorbAll p c (b :: bs) = absorbAll p (absorb p c b) bs := rfl

theorem absorbAll_append (c : BitVec w) (bs cs : List UInt8) :
    absorbAll p c (bs ++ cs) = absorbAll p (absorbAll p c bs) cs := List.foldl_append

/-! ## A shift is linear -/

theorem bitStep_xor (a b : BitVec w) : bitStep p (a ^^^ b) = bitStep p a ^^^ bitStep p b := by
  have hcancel : (a >>> 1 ^^^ p) ^^^ (b >>> 1 ^^^ p) = a >>> 1 ^^^ b >>> 1 := by
    rw [BitVec.xor_assoc, BitVec.xor_comm p, BitVec.xor_assoc, BitVec.xor_self, BitVec.xor_zero]
  unfold bitStep
  rw [BitVec.getLsbD_xor, BitVec.ushiftRight_xor_distrib]
  cases a.getLsbD 0 <;> cases b.getLsbD 0
  · rfl
  · exact BitVec.xor_assoc _ _ _
  · show a >>> 1 ^^^ b >>> 1 ^^^ p = a >>> 1 ^^^ p ^^^ b >>> 1
    rw [BitVec.xor_assoc, BitVec.xor_comm _ p, ← BitVec.xor_assoc]
  · exact hcancel.symm

theorem bitSteps_xor (n : Nat) (a b : BitVec w) :
    bitSteps p n (a ^^^ b) = bitSteps p n a ^^^ bitSteps p n b := by
  induction n generalizing a b with
  | zero => rfl
  | succ n ih => rw [bitSteps, bitSteps, bitSteps, bitStep_xor, ih]

/-- Zeros that fall out add nothing. -/
theorem bitSteps_of_low {n : Nat} {c : BitVec w} (h : ∀ i < n, c.getLsbD i = false) :
    bitSteps p n c = c >>> n := by
  induction n generalizing c with
  | zero => rw [bitSteps, BitVec.ushiftRight_zero]
  | succ n ih =>
    have hzero : bitStep p c = c >>> 1 := if_neg (by rw [h 0 n.succ_pos]; decide)
    rw [bitSteps, hzero, ih, ← BitVec.shiftRight_add, Nat.add_comm]
    intro i hi
    rw [BitVec.getLsbD_ushiftRight]
    exact h (1 + i) (by omega)

/-- The low `n` bits decide what is added, the others only move. -/
theorem bitSteps_split (n : Nat) (c : BitVec w) :
    bitSteps p n c = bitSteps p n ((c.setWidth n).setWidth w) ^^^ (c >>> n) := by
  have hlow : ∀ i < n, (c ^^^ (c.setWidth n).setWidth w).getLsbD i = false := by
    intro i hi
    by_cases hw : i < w
    · simp [hi, hw]
    · exact BitVec.getLsbD_of_ge _ _ (Nat.le_of_not_lt hw)
  have hhigh : (c ^^^ (c.setWidth n).setWidth w) >>> n = c >>> n := by
    apply BitVec.eq_of_getLsbD_eq
    intro i hi
    simp
  have hsplit := bitSteps_xor p n ((c.setWidth n).setWidth w) (c ^^^ (c.setWidth n).setWidth w)
  have hsum : (c.setWidth n).setWidth w ^^^ (c ^^^ (c.setWidth n).setWidth w) = c := by
    rw [BitVec.xor_comm, BitVec.xor_assoc, BitVec.xor_self, BitVec.xor_zero]
  rw [hsum, bitSteps_of_low p hlow, hhigh] at hsplit
  exact hsplit

/-- **A byte at a time**: with eight shifts of every byte in a table, one look-up absorbs a byte. -/
theorem absorb_eq_table {table : BitVec 8 → BitVec w}
    (htable : ∀ i, table i = bitSteps p 8 (i.setWidth w)) (c : BitVec w) (b : UInt8) :
    absorb p c b = table ((c ^^^ byteBits w b).setWidth 8) ^^^ (c >>> 8) := by
  have hbyte : byteBits w b >>> 8 = 0#w := by
    apply BitVec.eq_of_getLsbD_eq
    intro i hi
    simp [byteBits, BitVec.getLsbD_of_ge]
  rw [absorb, bitSteps_split, htable, BitVec.ushiftRight_xor_distrib, hbyte, BitVec.xor_zero]

/-! ## A shift loses nothing -/

section Injective

variable {p} (hp : p.msb = true)

include hp

/-- Only zero is shifted to zero: a one that falls out leaves the top bit of the polynomial. -/
theorem eq_zero_of_bitStep {c : BitVec w} (h : bitStep p c = 0#w) : c = 0#w := by
  have htop : (c >>> 1).msb = false := by
    rw [BitVec.msb_eq_getLsbD_last, BitVec.getLsbD_ushiftRight]
    exact BitVec.getLsbD_of_ge _ _ (by omega)
  by_cases hlow : c.getLsbD 0 = true
  · rw [bitStep, if_pos hlow] at h
    have hmsb := congrArg BitVec.msb h
    rw [BitVec.msb_xor, htop, hp, BitVec.msb_zero] at hmsb
    cases hmsb
  · rw [bitStep, if_neg hlow] at h
    apply BitVec.eq_of_getLsbD_eq
    intro i hi
    cases i with
    | zero => simpa using hlow
    | succ i =>
      have hbit := congrArg (fun x : BitVec w => x.getLsbD i) h
      simpa [Nat.add_comm] using hbit

theorem bitStep_injective {a b : BitVec w} (h : bitStep p a = bitStep p b) : a = b := by
  have hdiff : bitStep p (a ^^^ b) = 0#w := by rw [bitStep_xor, h, BitVec.xor_self]
  exact BitVec.xor_eq_zero_iff.1 (eq_zero_of_bitStep hp hdiff)

theorem bitSteps_injective (n : Nat) {a b : BitVec w} (h : bitSteps p n a = bitSteps p n b) :
    a = b := by
  induction n generalizing a b with
  | zero => exact h
  | succ n ih => exact bitStep_injective hp (ih h)

/-- Different registers stay different. -/
theorem absorbAll_injective {a b : BitVec w} (bs : List UInt8)
    (h : absorbAll p a bs = absorbAll p b bs) : a = b := by
  induction bs generalizing a b with
  | nil => exact h
  | cons x bs ih => exact (BitVec.xor_left_inj _).1 (bitSteps_injective hp 8 (ih h))

/-- `n` bits lead to every register. -/
theorem exists_bitSteps_eq (n : Nat) (r : BitVec w) : ∃ c, bitSteps p n c = r := by
  have hfinite : Finite (BitVec w) := .of_injective BitVec.toFin fun _ _ => BitVec.toFin_inj.1
  exact Finite.surjective_of_injective (fun _ _ h => bitSteps_injective hp n h) r

/-- A message leads to every register. -/
theorem exists_absorbAll_eq (bs : List UInt8) (r : BitVec w) : ∃ c, absorbAll p c bs = r := by
  have hfinite : Finite (BitVec w) := .of_injective BitVec.toFin fun _ _ => BitVec.toFin_inj.1
  exact Finite.surjective_of_injective (fun _ _ h => absorbAll_injective hp bs h) r

end Injective

/-! ## A window -/

/-- A byte and the number behind it, in one register. -/
theorem ofNat_leValue_cons (b : UInt8) (bs : List UInt8) :
    BitVec.ofNat w (leValue (b :: bs)) = byteBits w b ^^^ BitVec.ofNat w (leValue bs) <<< 8 := by
  have hcomm : b.toNat + 256 * leValue bs = 2 ^ 8 * leValue bs + b.toNat := Nat.add_comm _ _
  have hlt : b.toNat < 2 ^ 8 := b.toNat_lt
  apply BitVec.eq_of_getLsbD_eq
  intro i hi
  rw [leValue, hcomm, BitVec.getLsbD_ofNat, Nat.testBit_two_pow_mul_add _ hlt]
  simp only [byteBits, BitVec.getLsbD_xor, BitVec.getLsbD_setWidth, BitVec.getLsbD_shiftLeft,
    BitVec.getLsbD_ofNat]
  by_cases hi8 : i < 8
  · simp [hi, hi8, BitVec.getLsbD]
  · have hlt : i - 8 < w := Nat.lt_of_le_of_lt (Nat.sub_le i 8) hi
    simp [hi, hi8, BitVec.getLsbD_of_ge, Nat.le_of_not_lt hi8, hlt]

/-- A number that was moved up is moved down again. -/
theorem bitSteps_shiftLeft {n v : Nat} (h : v < 2 ^ (w - n)) :
    bitSteps p n (BitVec.ofNat w v <<< n) = BitVec.ofNat w v := by
  rw [bitSteps_of_low]
  · apply BitVec.eq_of_getLsbD_eq
    intro i hi
    rw [BitVec.getLsbD_ushiftRight, BitVec.getLsbD_shiftLeft, Nat.add_sub_cancel_left,
      BitVec.getLsbD_ofNat]
    by_cases hin : n + i < w
    · simp [hin]
    · have hbit : v.testBit i = false := Nat.testBit_lt_two_pow
        (h.trans_le (Nat.pow_le_pow_right (by omega) (by omega)))
      simp [hbit]
  · intro i hi
    simp [hi]

/-- **Bytes that fit in the register are absorbed as the number they spell.** -/
theorem absorbAll_eq {bs : List UInt8} (h : 8 * bs.length ≤ w) (c : BitVec w) :
    absorbAll p c bs = bitSteps p (8 * bs.length) (c ^^^ BitVec.ofNat w (leValue bs)) := by
  induction bs generalizing c with
  | nil => exact (BitVec.xor_zero).symm
  | cons b bs ih =>
    rw [List.length_cons] at h ⊢
    have hpow : 256 ^ bs.length = 2 ^ (8 * bs.length) := (Nat.pow_mul 2 8 _).symm
    have hlt : leValue bs < 2 ^ (w - 8) :=
      (leValue_lt bs).trans_le (hpow ▸ Nat.pow_le_pow_right (by omega) (by omega))
    calc absorbAll p c (b :: bs)
        = bitSteps p (8 * bs.length) (absorb p c b ^^^ BitVec.ofNat w (leValue bs)) := by
          rw [absorbAll_cons, ih (by omega)]
      _ = bitSteps p (8 * bs.length)
            (bitSteps p 8 (c ^^^ byteBits w b ^^^ BitVec.ofNat w (leValue bs) <<< 8)) := by
          rw [bitSteps_xor p 8, bitSteps_shiftLeft p hlt, absorb]
      _ = bitSteps p (8 * (bs.length + 1)) (c ^^^ BitVec.ofNat w (leValue (b :: bs))) := by
          rw [← bitSteps_add, ofNat_leValue_cons, BitVec.xor_assoc, Nat.mul_succ, Nat.add_comm]

section Window

variable {p} (hp : p.msb = true)

include hp

/-- Different bytes that fit in the register leave different registers. -/
theorem absorbAll_window_injective {xs ys : List UInt8} (hlen : xs.length = ys.length)
    (hfit : 8 * xs.length ≤ w) {c : BitVec w} (h : absorbAll p c xs = absorbAll p c ys) :
    xs = ys := by
  have hpow : 256 ^ xs.length = 2 ^ (8 * xs.length) := (Nat.pow_mul 2 8 _).symm
  have htop : 256 ^ xs.length ≤ 2 ^ w := hpow ▸ Nat.pow_le_pow_right (by omega) hfit
  rw [absorbAll_eq p hfit, absorbAll_eq p (hlen ▸ hfit), hlen] at h
  have hsame := congrArg BitVec.toNat ((BitVec.xor_right_inj _).1 (bitSteps_injective hp _ h))
  rw [BitVec.toNat_ofNat, BitVec.toNat_ofNat, Nat.mod_eq_of_lt ((leValue_lt xs).trans_le htop),
    Nat.mod_eq_of_lt ((leValue_lt ys).trans_le (hlen ▸ htop))] at hsame
  exact leValue_inj hlen hsame

/-- **Bytes that fill the register lead to every register**, from any start and with any bytes
behind them, in one way. -/
theorem existsUnique_window {n : Nat} (hw : w = 8 * n) (c r : BitVec w) (behind : List UInt8) :
    ∃! xs : List UInt8, xs.length = n ∧ absorbAll p c (xs ++ behind) = r := by
  obtain ⟨s, rfl⟩ := exists_absorbAll_eq hp behind r
  obtain ⟨d, rfl⟩ := exists_bitSteps_eq hp (8 * n) s
  have hpow : 256 ^ n = 2 ^ w := by rw [hw, Nat.pow_mul]
  -- the window has to spell the difference of the two registers
  have hiff : ∀ xs : List UInt8, xs.length = n →
      (absorbAll p c (xs ++ behind) = absorbAll p (bitSteps p (8 * n) d) behind ↔
        BitVec.ofNat w (leValue xs) = c ^^^ d) := by
    intro xs hxs
    have hwindow : absorbAll p c xs = _ := absorbAll_eq p (by omega) c
    rw [hxs] at hwindow
    rw [absorbAll_append, hwindow]
    constructor
    · intro h
      have hsame := bitSteps_injective hp _ (absorbAll_injective hp behind h)
      rw [← hsame, ← BitVec.xor_assoc, BitVec.xor_self, BitVec.zero_xor]
    · intro h
      rw [h, ← BitVec.xor_assoc, BitVec.xor_self, BitVec.zero_xor]
  refine ⟨leBytes n (c ^^^ d).toNat, ⟨length_leBytes n _, ?_⟩, ?_⟩
  · rw [hiff _ (length_leBytes n _), leValue_leBytes_of_lt (hpow ▸ (c ^^^ d).isLt),
      BitVec.ofNat_toNat, BitVec.setWidth_eq]
  · rintro xs ⟨hxs, h⟩
    have hlt : leValue xs < 2 ^ w := hpow ▸ hxs ▸ leValue_lt xs
    rw [← (hiff xs hxs).1 h, BitVec.toNat_ofNat, Nat.mod_eq_of_lt hlt, ← hxs, leBytes_leValue]

/-- **A short burst is seen**: messages that differ only inside a window that fits in the register
leave different registers. -/
theorem absorbAll_ne_of_window {m₁ m₂ : List UInt8} (hne : m₁ ≠ m₂)
    (hlen : m₁.length = m₂.length) {k n : Nat} (hfit : 8 * n ≤ w)
    (hwindow : ∀ i, m₁[i]? ≠ m₂[i]? → k ≤ i ∧ i < k + n) (c : BitVec w) :
    absorbAll p c m₁ ≠ absorbAll p c m₂ := by
  -- the messages agree in front of the window and behind it
  have hfront : m₁.take k = m₂.take k := by
    apply List.ext_getElem?
    intro i
    rw [List.getElem?_take, List.getElem?_take]
    split
    · next hik =>
      by_contra hdiff
      have hin := hwindow i hdiff
      omega
    · rfl
  have hbehind : m₁.drop (k + n) = m₂.drop (k + n) := by
    apply List.ext_getElem?
    intro i
    rw [List.getElem?_drop, List.getElem?_drop]
    by_contra hdiff
    have hin := hwindow (k + n + i) hdiff
    omega
  have hsplit : ∀ m : List UInt8,
      m = m.take k ++ ((m.drop k).take n ++ m.drop (k + n)) := by
    intro m
    rw [← List.drop_drop, List.take_append_drop, List.take_append_drop]
  intro heq
  rw [hsplit m₁, hsplit m₂, hfront, hbehind, absorbAll_append, absorbAll_append, absorbAll_append,
    absorbAll_append] at heq
  have hwin := absorbAll_window_injective hp (by simp [hlen])
    (by rw [List.length_take]; omega) (absorbAll_injective hp _ heq)
  rw [hsplit m₁, hsplit m₂, hfront, hbehind, hwin] at hne
  exact hne rfl

end Window

end Crc
