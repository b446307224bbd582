import Mathlib.Data.List.Basic

/-!
# Overlays: writing a block into a fixed-size list

`overlay xs i ys` writes the block `ys` over `xs` from index `i` on and keeps the length of `xs`;
what would land past the end is dropped. `getElem?_overlay` gives its pointwise reading, and every
other law follows from it: writes to adjacent places fuse (`overlay_append`), a write inside an
earlier one is a write into its block (`overlay_overlay`), and reads elsewhere are unchanged
(`take_overlay`, `slice_overlay_of_disjoint`).

A `Patch` is a block with its destination and `patch` applies a list of them in order, relative to
a base. Patches that follow one another without a gap amount to one overlay
(`patch_of_contiguous`).
-/

namespace Overlay

variable {α : Type*}

/-- `xs` with the block `ys` written over it from index `i` on. -/
def overlay (xs : List α) (i : Nat) (ys : List α) : List α :=
  xs.take i ++ ys.take (xs.length - i) ++ xs.drop (i + ys.length)

/-- The `n` items of `xs` from index `i` on. -/
def slice (xs : List α) (i n : Nat) : List α := (xs.drop i).take n

/-! ## Slices -/

theorem getElem?_slice (xs : List α) (i n j : Nat) :
    (slice xs i n)[j]? = if j < n then xs[i + j]? else none := by
  simp only [slice, List.getElem?_take, List.getElem?_drop]

@[simp] theorem length_slice (xs : List α) (i n : Nat) :
    (slice xs i n).length = min n (xs.length - i) := by
  simp only [slice, List.length_take, List.length_drop]

theorem length_slice_of_le {xs : List α} {i n : Nat} (h : i + n ≤ xs.length) :
    (slice xs i n).length = n := by
  rw [length_slice]
  omega

theorem slice_add (xs : List α) (i m n : Nat) :
    slice xs i (m + n) = slice xs i m ++ slice xs (i + m) n := by
  simp only [slice, List.take_add, List.drop_drop]

theorem slice_slice (xs : List α) {i n j m : Nat} (h : j + m ≤ n) :
    slice (slice xs i n) j m = slice xs (i + j) m := by
  apply List.ext_getElem?
  intro k
  simp only [getElem?_slice]
  split
  · rw [if_pos (by omega), Nat.add_assoc]
  · rfl

theorem slice_take (xs : List α) {i n m : Nat} (h : i + n ≤ m) :
    slice (xs.take m) i n = slice xs i n := by
  apply List.ext_getElem?
  intro k
  simp only [getElem?_slice, List.getElem?_take]
  split
  · rw [if_pos (by omega)]
  · rfl

theorem slice_append_right (xs ys : List α) (i n : Nat) :
    slice (xs ++ ys) (xs.length + i) n = slice ys i n := by
  rw [slice, List.drop_length_add_append, slice]

theorem take_eq_append_slice (xs : List α) {i n : Nat} (h : i ≤ n) :
    xs.take n = xs.take i ++ slice xs i (n - i) := by
  have hsplit : n = i + (n - i) := by omega
  conv => lhs; rw [hsplit, List.take_add]
  rfl

/-- Lists with a common prefix have the same slices inside it. -/
theorem slice_congr_take {xs ys : List α} {i n m : Nat} (h : xs.take m = ys.take m)
    (hm : i + n ≤ m) : slice xs i n = slice ys i n := by
  rw [← slice_take xs hm, h, slice_take ys hm]

/-! ## One overlay -/

@[simp] theorem length_overlay (xs : List α) (i : Nat) (ys : List α) :
    (overlay xs i ys).length = xs.length := by
  simp only [overlay, List.length_append, List.length_take, List.length_drop]
  omega

/-- Reading an overlay: the block where it reaches, the old list elsewhere. -/
theorem getElem?_overlay (xs : List α) (i : Nat) (ys : List α) (j : Nat) :
    (overlay xs i ys)[j]? =
      if i ≤ j ∧ j < i + ys.length ∧ j < xs.length then ys[j - i]? else xs[j]? := by
  simp only [overlay, List.append_assoc, List.getElem?_append, List.getElem?_take,
    List.getElem?_drop, List.length_take]
  by_cases hlo : j < i
  · by_cases hlen : j < xs.length
    · rw [if_pos (by omega), if_pos hlo, if_neg (by omega)]
    · rw [if_neg (by omega), if_neg (by omega), if_neg (by omega),
        List.getElem?_eq_none (by omega), List.getElem?_eq_none (by omega)]
  · by_cases hlen : j < xs.length
    · rw [if_neg (by omega)]
      by_cases hhi : j < i + ys.length
      · have hmin : min i xs.length = i := by omega
        rw [if_pos (by omega), if_pos (by omega), if_pos (by omega), hmin]
      · rw [if_neg (by omega), if_neg (by omega)]
        congr 1
        omega
    · rw [if_neg (by omega), if_neg (by omega), if_neg (by omega),
        List.getElem?_eq_none (by omega), List.getElem?_eq_none (by omega)]

@[simp] theorem overlay_nil (xs : List α) (i : Nat) : overlay xs i [] = xs := by
  apply List.ext_getElem?
  intro j
  rw [getElem?_overlay, if_neg (by simp only [List.length_nil]; omega)]

/-- Writing one block and then its continuation is writing both at once. -/
theorem overlay_append (xs : List α) (i : Nat) (ys zs : List α) :
    overlay xs i (ys ++ zs) = overlay (overlay xs i ys) (i + ys.length) zs := by
  apply List.ext_getElem?
  intro j
  simp only [getElem?_overlay, List.length_append, length_overlay, List.getElem?_append]
  by_cases hz : i + ys.length ≤ j ∧ j < i + ys.length + zs.length ∧ j < xs.length
  · rw [if_pos (by omega), if_neg (by omega), if_pos hz]
    congr 1
    omega
  · rw [if_neg hz]
    by_cases hy : i ≤ j ∧ j < i + ys.length ∧ j < xs.length
    · rw [if_pos (by omega), if_pos (by omega), if_pos hy]
    · rw [if_neg (by omega), if_neg hy]

/-- A write inside an earlier block is a write into that block. -/
theorem overlay_overlay (xs : List α) {i j : Nat} {ys zs : List α} (hlo : i ≤ j)
    (hhi : j + zs.length ≤ i + ys.length) :
    overlay (overlay xs i ys) j zs = overlay xs i (overlay ys (j - i) zs) := by
  apply List.ext_getElem?
  intro k
  simp only [getElem?_overlay, length_overlay]
  by_cases hz : j ≤ k ∧ k < j + zs.length ∧ k < xs.length
  · rw [if_pos hz, if_pos (by omega), if_pos (by omega)]
    congr 1
    omega
  · rw [if_neg hz]
    by_cases hy : i ≤ k ∧ k < i + ys.length ∧ k < xs.length
    · rw [if_pos hy, if_pos hy, if_neg (by omega)]
    · rw [if_neg hy, if_neg hy]

/-- Two writes of equally long blocks at one place leave the second. -/
theorem overlay_overwrite (xs : List α) (i : Nat) {ys zs : List α} (h : zs.length = ys.length) :
    overlay (overlay xs i ys) i zs = overlay xs i zs := by
  rw [overlay_overlay xs (Nat.le_refl i) (by omega), Nat.sub_self]
  congr 1
  simp only [overlay, List.take_zero, List.nil_append, Nat.sub_zero, ← h, List.take_length]
  rw [List.drop_of_length_le (by omega), List.append_nil]

theorem take_overlay {xs : List α} {i n : Nat} (h : n ≤ i) (ys : List α) :
    (overlay xs i ys).take n = xs.take n := by
  apply List.ext_getElem?
  intro j
  simp only [List.getElem?_take, getElem?_overlay]
  split
  · rw [if_neg (by omega)]
  · rfl

theorem drop_overlay {xs : List α} {i n : Nat} {ys : List α} (h : i + ys.length ≤ n) :
    (overlay xs i ys).drop n = xs.drop n := by
  apply List.ext_getElem?
  intro j
  rw [List.getElem?_drop, List.getElem?_drop, getElem?_overlay, if_neg (by omega)]

/-- Reading inside the block that was written. -/
theorem slice_overlay_of_within {xs : List α} {i j n : Nat} {ys : List α} (hlo : i ≤ j)
    (hhi : j + n ≤ i + ys.length) (hlen : j + n ≤ xs.length) :
    slice (overlay xs i ys) j n = slice ys (j - i) n := by
  apply List.ext_getElem?
  intro k
  simp only [getElem?_slice, getElem?_overlay]
  split
  · have hindex : j + k - i = j - i + k := by omega
    rw [if_pos (by omega), hindex]
  · rfl

theorem slice_overlay_self {xs : List α} {i : Nat} {ys : List α}
    (h : i + ys.length ≤ xs.length) : slice (overlay xs i ys) i ys.length = ys := by
  rw [slice_overlay_of_within (Nat.le_refl i) (Nat.le_refl _) h, Nat.sub_self]
  exact List.take_length

/-- What was written, and what it was written in front of. -/
theorem drop_overlay_self {xs : List α} {i : Nat} {ys : List α} (h : i + ys.length ≤ xs.length) :
    (overlay xs i ys).drop i = ys ++ xs.drop (i + ys.length) := by
  have hself := slice_overlay_self h
  rw [← List.take_append_drop ys.length ((overlay xs i ys).drop i), List.drop_drop,
    drop_overlay (Nat.le_refl _)]
  exact congrArg (· ++ _) hself

theorem slice_overlay_of_disjoint (xs : List α) {i j n : Nat} {ys : List α}
    (h : j + n ≤ i ∨ i + ys.length ≤ j) : slice (overlay xs i ys) j n = slice xs j n := by
  apply List.ext_getElem?
  intro k
  simp only [getElem?_slice, getElem?_overlay]
  split
  · rw [if_neg (by omega)]
  · rfl

/-- Writing back what is already there changes nothing. -/
theorem overlay_of_slice_eq {xs : List α} {i : Nat} {ys : List α}
    (h : slice xs i ys.length = ys) : overlay xs i ys = xs := by
  apply List.ext_getElem?
  intro j
  rw [getElem?_overlay]
  split
  · next hj =>
    have hread := congrArg (fun l => l[j - i]?) h
    simp only [getElem?_slice] at hread
    rw [if_pos (by omega), Nat.add_sub_cancel' hj.1] at hread
    exact hread.symm
  · rfl

/-- Writes to disjoint places commute. -/
theorem overlay_comm (xs : List α) {i j : Nat} {ys zs : List α} (h : i + ys.length ≤ j) :
    overlay (overlay xs i ys) j zs = overlay (overlay xs j zs) i ys := by
  apply List.ext_getElem?
  intro k
  simp only [getElem?_overlay, length_overlay]
  by_cases hz : j ≤ k ∧ k < j + zs.length ∧ k < xs.length
  · rw [if_pos hz, if_neg (by omega), if_pos hz]
  · rw [if_neg hz]
    by_cases hy : i ≤ k ∧ k < i + ys.length ∧ k < xs.length
    · rw [if_pos hy, if_pos hy]
    · rw [if_neg hy, if_neg hy, if_neg hz]

/-- A write inside the first of two lists. -/
theorem overlay_append_left {xs : List α} {i : Nat} {ys : List α} (zs : List α)
    (h : i + ys.length ≤ xs.length) : overlay (xs ++ zs) i ys = overlay xs i ys ++ zs := by
  apply List.ext_getElem?
  intro k
  simp only [getElem?_overlay, List.getElem?_append, length_overlay, List.length_append]
  by_cases hx : k < xs.length
  · simp only [Nat.lt_add_right zs.length hx, hx, and_true, if_true]
  · rw [if_neg (by omega), if_neg hx, if_neg hx]

theorem overlay_cons_succ (x : α) (xs : List α) (i : Nat) (ys : List α) :
    overlay (x :: xs) (i + 1) ys = x :: overlay xs i ys := by
  have hend : i + 1 + ys.length = i + ys.length + 1 := by omega
  simp only [overlay, List.take_succ_cons, List.length_cons, Nat.add_sub_add_right,
    List.cons_append, hend, List.drop_succ_cons]

/-- A block written over a constant list. -/
theorem overlay_replicate {n i : Nat} {ys : List α} (x : α) (h : i + ys.length ≤ n) :
    overlay (List.replicate n x) i ys =
      List.replicate i x ++ ys ++ List.replicate (n - (i + ys.length)) x := by
  have hi : min i n = i := by omega
  have hys : ys.length ≤ n - i := by omega
  simp only [overlay, List.take_replicate, List.length_replicate, List.drop_replicate,
    List.take_of_length_le hys, hi]

/-! ## Patches -/

/-- A block and where it goes, counted from a base given later. -/
structure Patch (α : Type*) where
  dst : Nat
  items : List α
deriving DecidableEq

/-- Apply patches in order, each relative to `base`. -/
def patch (xs : List α) (base : Nat) (ps : List (Patch α)) : List α :=
  ps.foldl (fun acc p => overlay acc (base + p.dst) p.items) xs

@[simp] theorem patch_nil (xs : List α) (base : Nat) : patch xs base [] = xs := rfl

@[simp] theorem patch_cons (xs : List α) (base : Nat) (p : Patch α) (ps : List (Patch α)) :
    patch xs base (p :: ps) = patch (overlay xs (base + p.dst) p.items) base ps := rfl

theorem patch_append (xs : List α) (base : Nat) (ps qs : List (Patch α)) :
    patch xs base (ps ++ qs) = patch (patch xs base ps) base qs := by
  simp only [patch, List.foldl_append]

@[simp] theorem length_patch (xs : List α) (base : Nat) (ps : List (Patch α)) :
    (patch xs base ps).length = xs.length := by
  induction ps generalizing xs with
  | nil => rfl
  | cons p ps ih => rw [patch_cons, ih, length_overlay]

/-- Patches that start at or after `n` leave the first `n` items alone. -/
theorem take_patch (xs : List α) {base n : Nat} {ps : List (Patch α)}
    (h : ∀ p ∈ ps, n ≤ base + p.dst) : (patch xs base ps).take n = xs.take n := by
  induction ps generalizing xs with
  | nil => rfl
  | cons p ps ih =>
    rw [patch_cons, ih _ fun q hq => h q (List.mem_cons_of_mem p hq),
      take_overlay (h p List.mem_cons_self)]

/-- The patches follow one another without a gap, the first at `k`. -/
def Contiguous : Nat → List (Patch α) → Prop
  | _, [] => True
  | k, p :: ps => p.dst = k ∧ Contiguous (k + p.items.length) ps

/-- Patches without gaps amount to one overlay of their blocks. -/
theorem patch_of_contiguous (xs : List α) (base : Nat) {k : Nat} {ps : List (Patch α)}
    (h : Contiguous k ps) : patch xs base ps = overlay xs (base + k) (ps.flatMap Patch.items) := by
  induction ps generalizing xs k with
  | nil => simp
  | cons p ps ih =>
    obtain ⟨rfl, hrest⟩ := h
    rw [patch_cons, ih _ hrest, List.flatMap_cons, overlay_append, Nat.add_assoc]

theorem Contiguous.bounds {k : Nat} {ps : List (Patch α)} (h : Contiguous k ps) {p : Patch α}
    (hp : p ∈ ps) :
    k ≤ p.dst ∧ p.dst + p.items.length ≤ k + (ps.flatMap Patch.items).length := by
  induction ps generalizing k with
  | nil => cases hp
  | cons q qs ih =>
    obtain ⟨hdst, hrest⟩ := h
    rw [List.flatMap_cons, List.length_append]
    rcases List.mem_cons.1 hp with rfl | hp
    · omega
    · have := ih hrest hp
      omega

end Overlay
