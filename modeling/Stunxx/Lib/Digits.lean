import Mathlib.Tactic.Ring

/-!
# Positional bytes

A natural number written with a fixed number of base-256 digits, least significant first
(`leBytes`) or most significant first (`beBytes`), and the number a byte string spells. Writing
and reading are inverse on numbers that fit (`leValue_leBytes_of_lt`) and on every byte string
(`leBytes_leValue`), so a byte string determines its number and conversely (`leBytes_inj`).
-/

namespace Digits

/-- The `n` low base-256 digits of `v`, least significant first. -/
def leBytes : Nat → Nat → List UInt8
  | 0, _ => []
  | n + 1, v => UInt8.ofNat v :: leBytes n (v / 256)

/-- The number whose base-256 digits are `bs`, least significant first. -/
def leValue : List UInt8 → Nat
  | [] => 0
  | b :: bs => b.toNat + 256 * leValue bs

/-- The `n` low base-256 digits of `v`, most significant first. -/
def beBytes (n v : Nat) : List UInt8 := (leBytes n v).reverse

/-- The number whose base-256 digits are `bs`, most significant first. -/
def beValue (bs : List UInt8) : Nat := leValue bs.reverse

@[simp] theorem length_leBytes (n v : Nat) : (leBytes n v).length = n := by
  induction n generalizing v with
  | zero => rfl
  | succ n ih => simp [leBytes, ih]

@[simp] theorem length_beBytes (n v : Nat) : (beBytes n v).length = n := by
  simp [beBytes]

/-! ## Writing, then reading -/

theorem leValue_leBytes (n v : Nat) : leValue (leBytes n v) = v % 256 ^ n := by
  induction n generalizing v with
  | zero => simp [leBytes, leValue, Nat.mod_one]
  | succ n ih =>
    have hpow : 256 ^ (n + 1) = 256 * 256 ^ n := Nat.pow_succ'
    simp only [leBytes, leValue, ih, UInt8.toNat_ofNat']
    rw [hpow, Nat.mod_mul]

theorem leValue_leBytes_of_lt {n v : Nat} (h : v < 256 ^ n) : leValue (leBytes n v) = v := by
  rw [leValue_leBytes, Nat.mod_eq_of_lt h]

theorem beValue_beBytes_of_lt {n v : Nat} (h : v < 256 ^ n) : beValue (beBytes n v) = v := by
  simp only [beValue, beBytes, List.reverse_reverse, leValue_leBytes_of_lt h]

/-! ## Reading, then writing -/

theorem leBytes_leValue (bs : List UInt8) : leBytes bs.length (leValue bs) = bs := by
  induction bs with
  | nil => rfl
  | cons b bs ih =>
    have hb := b.toNat_lt
    have hdigit : UInt8.ofNat (b.toNat + 256 * leValue bs) = b := by
      apply UInt8.toNat_inj.1
      rw [UInt8.toNat_ofNat']
      omega
    have hrest : (b.toNat + 256 * leValue bs) / 256 = leValue bs := by omega
    simp only [List.length_cons, leBytes, leValue, hdigit, hrest, ih]

theorem beBytes_beValue (bs : List UInt8) : beBytes bs.length (beValue bs) = bs := by
  have h := leBytes_leValue bs.reverse
  rw [List.length_reverse] at h
  rw [beBytes, beValue, h, List.reverse_reverse]

theorem leValue_lt (bs : List UInt8) : leValue bs < 256 ^ bs.length := by
  have h := leValue_leBytes bs.length (leValue bs)
  rw [leBytes_leValue] at h
  exact h ▸ Nat.mod_lt _ (Nat.pow_pos (by omega))

/-- Byte strings of one length that spell the same number are the same. -/
theorem leValue_inj {bs cs : List UInt8} (hlen : bs.length = cs.length)
    (h : leValue bs = leValue cs) : bs = cs := by
  rw [← leBytes_leValue bs, hlen, h, leBytes_leValue]

/-- Numbers that fit in `n` digits are determined by those digits. -/
theorem leBytes_inj {n v w : Nat} (hv : v < 256 ^ n) (hw : w < 256 ^ n)
    (h : leBytes n v = leBytes n w) : v = w := by
  rw [← leValue_leBytes_of_lt hv, h, leValue_leBytes_of_lt hw]

theorem beBytes_inj {n v w : Nat} (hv : v < 256 ^ n) (hw : w < 256 ^ n)
    (h : beBytes n v = beBytes n w) : v = w :=
  leBytes_inj hv hw (List.reverse_inj.1 h)

/-- Digits above the base are dropped. -/
theorem leBytes_mod (n v : Nat) : leBytes n (v % 256 ^ n) = leBytes n v := by
  rw [← leValue_leBytes]
  simpa only [length_leBytes] using leBytes_leValue (leBytes n v)

theorem beBytes_mod (n v : Nat) : beBytes n (v % 256 ^ n) = beBytes n v := by
  rw [beBytes, leBytes_mod, beBytes]

end Digits
