import Mathlib.Logic.Function.Defs
import Mathlib.Data.List.Basic

/-!
# Masks

A list is masked element by element with a stream of keys (`mask`). Masking twice is masking once
with the combined keys (`mask_mask`), so a second mask undoes the first exactly if the two keys
cancel at every index the list reaches (`mask_mask_eq_self_iff`). Where keys can be cancelled, two
streams mask a list alike exactly if they agree at these indices (`mask_eq_mask_iff`).
-/

namespace Mask

variable {α : Type*} (op : α → α → α)

/-- The elements of a list, each combined with its key; the first key is that of index `i`. -/
def mask (key : Nat → α) : Nat → List α → List α
  | _, [] => []
  | i, x :: xs => op x (key i) :: mask key (i + 1) xs

@[simp] theorem length_mask (key : Nat → α) (i : Nat) (xs : List α) :
    (mask op key i xs).length = xs.length := by
  induction xs generalizing i with
  | nil => rfl
  | cons x xs ih => rw [mask, List.length_cons, ih, List.length_cons]

theorem getElem?_mask (key : Nat → α) (i n : Nat) (xs : List α) :
    (mask op key i xs)[n]? = xs[n]?.map fun x => op x (key (i + n)) := by
  induction xs generalizing i n with
  | nil => rfl
  | cons x xs ih =>
    cases n with
    | zero => rfl
    | succ n =>
      rw [mask, List.getElem?_cons_succ, List.getElem?_cons_succ, ih, Nat.add_right_comm,
        Nat.add_assoc]

/-- Masking twice. -/
theorem mask_mask [Std.Associative op] (key key' : Nat → α) (i : Nat) (xs : List α) :
    mask op key' i (mask op key i xs) = mask op (fun n => op (key n) (key' n)) i xs := by
  induction xs generalizing i with
  | nil => rfl
  | cons x xs ih =>
    have hassoc : op (op x (key i)) (key' i) = op x (op (key i) (key' i)) :=
      Std.Associative.assoc x _ _
    rw [mask, mask, mask, ih, hassoc]

/-- Neutral keys. -/
theorem mask_neutral (e : α) [Std.LawfulRightIdentity op e] (i : Nat) (xs : List α) :
    mask op (fun _ => e) i xs = xs := by
  induction xs generalizing i with
  | nil => rfl
  | cons x xs ih =>
    have hneutral : op x e = x := Std.LawfulRightIdentity.right_id x
    rw [mask, ih, hneutral]

section Cancel

variable (hcancel : ∀ x, Function.Injective (op x))

include hcancel

/-- Two streams mask a list alike exactly if they agree as far as it reaches. -/
theorem mask_eq_mask_iff {key key' : Nat → α} {i : Nat} {xs : List α} :
    mask op key i xs = mask op key' i xs ↔ ∀ n < xs.length, key (i + n) = key' (i + n) := by
  induction xs generalizing i with
  | nil => exact ⟨fun _ n hn => (Nat.not_lt_zero n hn).elim, fun _ => rfl⟩
  | cons x xs ih =>
    rw [mask, mask, List.cons.injEq, ih, (hcancel x).eq_iff]
    constructor
    · rintro ⟨hhead, htail⟩ n hn
      cases n with
      | zero => exact hhead
      | succ n =>
        have hnext := htail n (Nat.lt_of_succ_lt_succ hn)
        rwa [Nat.add_right_comm, Nat.add_assoc] at hnext
    · intro h
      refine ⟨h 0 (Nat.succ_pos _), fun n hn => ?_⟩
      have hnext := h (n + 1) (Nat.succ_lt_succ hn)
      rwa [Nat.add_right_comm, Nat.add_assoc]

variable (e : α) [Std.LawfulRightIdentity op e]

/-- A mask leaves a list as it is exactly if its keys are neutral. -/
theorem mask_eq_self_iff {key : Nat → α} {i : Nat} {xs : List α} :
    mask op key i xs = xs ↔ ∀ n < xs.length, key (i + n) = e := by
  have hiff : mask op key i xs = mask op (fun _ => e) i xs ↔ ∀ n < xs.length, key (i + n) = e :=
    mask_eq_mask_iff op hcancel
  rwa [mask_neutral] at hiff

/-- A second mask undoes the first exactly if the keys cancel. -/
theorem mask_mask_eq_self_iff [Std.Associative op] {key key' : Nat → α} {i : Nat} {xs : List α} :
    mask op key' i (mask op key i xs) = xs ↔
      ∀ n < xs.length, op (key (i + n)) (key' (i + n)) = e := by
  rw [mask_mask, mask_eq_self_iff op hcancel e]

end Cancel

end Mask
