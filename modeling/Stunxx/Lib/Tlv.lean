import Stunxx.Lib.Overlay
import Mathlib.Algebra.BigOperators.Group.List.Basic
import Mathlib.Algebra.GroupWithZero.Nat

/-!
# Streams of tagged, length-prefixed, padded records

A `Format` fixes a head of constant size that spells a tag and a value length, and how much
padding follows a value. `Tiling F bs rs` says that `bs` is the records `rs` end to end, where
only the last one may have its padding cut short, or else fewer symbols than a head are left over.

`walk` reads such a stream front to back. It stops at the first record whose value does not fit,
and it reports the records it read so far either way. It accepts exactly the tilings
(`walk_eq_true_iff`), so a stream has at most one tiling (`Tiling.unique`). `layout` places the
records of a stream by offset; a walk's places are in bounds, in order and disjoint.
-/

namespace Tlv

open Overlay

variable {α τ : Type*}

/-- A head of fixed size for a tag and a length below `limit`, and the padding after a value. -/
structure Format (α τ : Type*) where
  headSize : Nat
  limit : Nat
  head : τ → Nat → List α
  readHead : List α → τ × Nat
  pad : Nat → Nat
  headSize_pos : 0 < headSize
  length_head : ∀ t n, (head t n).length = headSize
  readHead_head : ∀ t n rest, n < limit → readHead (head t n ++ rest) = (t, n)
  readHead_lt : ∀ bs, (readHead bs).2 < limit
  head_readHead : ∀ bs, headSize ≤ bs.length →
    head (readHead bs).1 (readHead bs).2 = bs.take headSize

/-- A record as it lies on the wire. -/
structure Record (α τ : Type*) where
  tag : τ
  value : List α
  padding : List α
deriving DecidableEq

variable (F : Format α τ)

/-- The symbols of a record. -/
def wire (r : Record α τ) : List α := F.head r.tag r.value.length ++ r.value ++ r.padding

/-- The size of a record whose padding is complete. -/
def stride (r : Record α τ) : Nat := F.headSize + r.value.length + F.pad r.value.length

/-- The record's length can be written and its padding is complete. -/
structure Full (r : Record α τ) : Prop where
  value_lt : r.value.length < F.limit
  padding_eq : r.padding.length = F.pad r.value.length

/-- `bs` is the records `rs` end to end, up to a cut last padding or less than a head left over. -/
inductive Tiling : List α → List (Record α τ) → Prop
  | rest {bs : List α} (h : bs.length < F.headSize) : Tiling bs []
  | cut {r : Record α τ} (hv : r.value.length < F.limit)
      (hp : r.padding.length < F.pad r.value.length) : Tiling (wire F r) [r]
  | full {r : Record α τ} {bs : List α} {rs : List (Record α τ)} (hr : Full F r)
      (h : Tiling bs rs) : Tiling (wire F r ++ bs) (r :: rs)

theorem length_wire (r : Record α τ) :
    (wire F r).length = F.headSize + r.value.length + r.padding.length := by
  simp only [wire, List.length_append, F.length_head]

theorem Full.length_wire {r : Record α τ} (h : Full F r) : (wire F r).length = stride F r := by
  rw [Tlv.length_wire, h.padding_eq, stride]

/-! ## The walk -/

/-- Read records front to back: whether the stream was accepted, and the records read. -/
def walk (bs : List α) : Bool × List (Record α τ) :=
  if _h : bs.length < F.headSize then (true, [])
  else
    let t := (F.readHead bs).1
    let n := (F.readHead bs).2
    if bs.length - F.headSize < n then (false, [])
    else
      let tail := walk (bs.drop (F.headSize + n + F.pad n))
      (tail.1, ⟨t, slice bs F.headSize n, slice bs (F.headSize + n) (F.pad n)⟩ :: tail.2)
termination_by bs.length
decreasing_by
  have := F.headSize_pos
  simp only [List.length_drop]
  omega

theorem walk_of_lt {bs : List α} (h : bs.length < F.headSize) : walk F bs = (true, []) := by
  rw [walk, dif_pos h]

theorem walk_of_short {bs : List α} (h : F.headSize ≤ bs.length)
    (hn : bs.length - F.headSize < (F.readHead bs).2) : walk F bs = (false, []) := by
  rw [walk, dif_neg (by omega)]
  exact if_pos hn

/-- The first record of a stream that has room for it. -/
def firstRecord (bs : List α) : Record α τ :=
  ⟨(F.readHead bs).1, slice bs F.headSize (F.readHead bs).2,
    slice bs (F.headSize + (F.readHead bs).2) (F.pad (F.readHead bs).2)⟩

theorem length_firstRecord_value {bs : List α}
    (hn : ¬bs.length - F.headSize < (F.readHead bs).2) :
    (firstRecord F bs).value.length = (F.readHead bs).2 := by
  simp only [firstRecord, length_slice]
  omega

theorem stride_firstRecord {bs : List α} (hn : ¬bs.length - F.headSize < (F.readHead bs).2) :
    stride F (firstRecord F bs) =
      F.headSize + (F.readHead bs).2 + F.pad (F.readHead bs).2 := by
  rw [stride, length_firstRecord_value F hn]

theorem walk_of_room {bs : List α} (h : F.headSize ≤ bs.length)
    (hn : ¬bs.length - F.headSize < (F.readHead bs).2) :
    walk F bs =
      ((walk F (bs.drop (stride F (firstRecord F bs)))).1,
        firstRecord F bs :: (walk F (bs.drop (stride F (firstRecord F bs)))).2) := by
  rw [stride_firstRecord F hn]
  conv => lhs; rw [walk]
  rw [dif_neg (by omega)]
  exact if_neg hn

/-- Induction along a walk: the stream is exhausted, its first value does not fit, or the walk
goes on behind the first record. -/
theorem walk_induction {P : List α → Prop}
    (stop : ∀ bs, bs.length < F.headSize → P bs)
    (short : ∀ bs, F.headSize ≤ bs.length → bs.length - F.headSize < (F.readHead bs).2 → P bs)
    (room : ∀ bs, F.headSize ≤ bs.length → ¬bs.length - F.headSize < (F.readHead bs).2 →
      P (bs.drop (stride F (firstRecord F bs))) → P bs) (bs : List α) : P bs := by
  induction hlen : bs.length using Nat.strongRecOn generalizing bs with
  | _ len ih =>
    subst hlen
    by_cases h : bs.length < F.headSize
    · exact stop bs h
    · by_cases hn : bs.length - F.headSize < (F.readHead bs).2
      · exact short bs (by omega) hn
      · refine room bs (by omega) hn (ih _ ?_ _ rfl)
        have hpos := F.headSize_pos
        rw [stride_firstRecord F hn, List.length_drop]
        omega

/-- A stream with room for its first record starts with that record. -/
theorem wire_firstRecord {bs : List α} (h : F.headSize ≤ bs.length)
    (hn : ¬bs.length - F.headSize < (F.readHead bs).2) :
    wire F (firstRecord F bs) ++ bs.drop (stride F (firstRecord F bs)) = bs := by
  rw [stride_firstRecord F hn, wire, length_firstRecord_value F hn]
  simp only [firstRecord, F.head_readHead bs h]
  have hhead : bs.take F.headSize ++ slice bs F.headSize (F.readHead bs).2 =
      bs.take (F.headSize + (F.readHead bs).2) := by
    rw [List.take_add]
    rfl
  have hpad := take_eq_append_slice bs (i := F.headSize + (F.readHead bs).2)
    (n := F.headSize + (F.readHead bs).2 + F.pad (F.readHead bs).2) (by omega)
  rw [Nat.add_sub_cancel_left] at hpad
  rw [hhead, ← hpad, List.take_append_drop]

/-- If there is room for its padding as well, the record is full. -/
theorem full_firstRecord {bs : List α}
    (h : F.headSize + (F.readHead bs).2 + F.pad (F.readHead bs).2 ≤ bs.length) :
    Full F (firstRecord F bs) := by
  have hvalue : (firstRecord F bs).value.length = (F.readHead bs).2 :=
    length_firstRecord_value F (by omega)
  constructor
  · rw [hvalue]
    exact F.readHead_lt bs
  · rw [hvalue]
    exact length_slice_of_le h

/-- Every value a walk reports has a length its head can spell. -/
theorem walk_value_lt {bs : List α} {r : Record α τ} (hr : r ∈ (walk F bs).2) :
    r.value.length < F.limit := by
  induction bs using walk_induction F with
  | stop bs hlt =>
    rw [walk_of_lt F hlt] at hr
    cases hr
  | short bs hle hn =>
    rw [walk_of_short F hle hn] at hr
    cases hr
  | room bs hle hn ih =>
    rw [walk_of_room F hle hn] at hr
    rcases List.mem_cons.1 hr with rfl | hr
    · rw [length_firstRecord_value F hn]
      exact F.readHead_lt bs
    · exact ih hr

/-! ## The walk accepts exactly the tilings -/

theorem Tiling.of_walk {bs : List α} {rs : List (Record α τ)} (h : walk F bs = (true, rs)) :
    Tiling F bs rs := by
  induction bs using walk_induction F generalizing rs with
  | stop bs hlt =>
    rw [walk_of_lt F hlt] at h
    cases h
    exact .rest hlt
  | short bs hle hn =>
    rw [walk_of_short F hle hn] at h
    cases h
  | room bs hle hn ih =>
    rw [walk_of_room F hle hn] at h
    obtain ⟨hok, rfl⟩ := Prod.mk.inj h
    have hvalue : (firstRecord F bs).value.length < F.limit := by
      rw [length_firstRecord_value F hn]
      exact F.readHead_lt bs
    have htail := ih (Prod.ext hok rfl)
    have hsplit := wire_firstRecord F hle hn
    by_cases hpad : (firstRecord F bs).padding.length = F.pad (firstRecord F bs).value.length
    · have hfull := Tiling.full (r := firstRecord F bs) ⟨hvalue, hpad⟩ htail
      rwa [hsplit] at hfull
    · -- the padding ran into the end of the stream, so nothing is left behind it
      have hvlen := length_firstRecord_value F hn
      have hplen : (firstRecord F bs).padding.length =
          min (F.pad (F.readHead bs).2) (bs.length - (F.headSize + (F.readHead bs).2)) := by
        simp only [firstRecord, length_slice]
      rw [hvlen, hplen] at hpad
      have hnil : bs.drop (stride F (firstRecord F bs)) = [] := by
        rw [stride_firstRecord F hn, List.drop_eq_nil_iff]
        omega
      have hcut := Tiling.cut (F := F) hvalue (by rw [hvlen, hplen]; omega)
      rw [hnil, List.append_nil] at hsplit
      rw [hnil, walk_of_lt F (by simpa only [List.length_nil] using F.headSize_pos)]
      rwa [hsplit] at hcut

theorem readHead_wire {r : Record α τ} (hv : r.value.length < F.limit) (bs : List α) :
    F.readHead (wire F r ++ bs) = (r.tag, r.value.length) := by
  rw [wire, List.append_assoc, List.append_assoc, F.readHead_head _ _ _ hv]

theorem slice_wire_value (r : Record α τ) (bs : List α) :
    slice (wire F r ++ bs) F.headSize r.value.length = r.value := by
  have hhead := F.length_head r.tag r.value.length
  rw [slice, wire, List.append_assoc, List.append_assoc, List.drop_append_of_le_length (by omega),
    List.drop_of_length_le (by omega), List.nil_append, List.take_left]

/-- The value of a record behind other elements. -/
theorem slice_append_wire_value (xs : List α) (r : Record α τ) :
    slice (xs ++ wire F r) (xs.length + F.headSize) r.value.length = r.value := by
  have hvalue := slice_wire_value F r []
  rwa [List.append_nil, ← slice_append_right xs] at hvalue

theorem slice_wire_padding {r : Record α τ} {n : Nat} {bs : List α}
    (h : n = r.padding.length ∨ r.padding.length ≤ n ∧ bs = []) :
    slice (wire F r ++ bs) (F.headSize + r.value.length) n = r.padding := by
  have hlen : (F.head r.tag r.value.length ++ r.value).length =
      F.headSize + r.value.length := by rw [List.length_append, F.length_head]
  rw [slice, wire, List.append_assoc, ← hlen, List.drop_left]
  rcases h with rfl | ⟨hn, rfl⟩
  · exact List.take_left
  · rw [List.append_nil, List.take_of_length_le hn]

theorem firstRecord_wire {r : Record α τ} (bs : List α) (hv : r.value.length < F.limit)
    (hp : r.padding.length = F.pad r.value.length ∨
      r.padding.length ≤ F.pad r.value.length ∧ bs = []) :
    firstRecord F (wire F r ++ bs) = r := by
  simp only [firstRecord, readHead_wire F hv, slice_wire_value]
  rw [slice_wire_padding F (hp.imp_left Eq.symm)]

/-- A walk reads a full record and goes on behind it. -/
theorem walk_wire_append {r : Record α τ} (hr : Full F r) (bs : List α) :
    walk F (wire F r ++ bs) = ((walk F bs).1, r :: (walk F bs).2) := by
  have hread := readHead_wire F hr.value_lt bs
  have hfirst := firstRecord_wire F bs hr.value_lt (.inl hr.padding_eq)
  have hlen : (wire F r ++ bs).length =
      F.headSize + r.value.length + r.padding.length + bs.length := by
    rw [List.length_append, Tlv.length_wire]
  rw [walk_of_room F (by omega) (by rw [hread]; simp only; omega), hfirst, ← hr.length_wire,
    List.drop_left]

theorem walk_flatMap_append {rs : List (Record α τ)} (h : ∀ r ∈ rs, Full F r) (bs : List α) :
    walk F (rs.flatMap (wire F) ++ bs) = ((walk F bs).1, rs ++ (walk F bs).2) := by
  induction rs with
  | nil => rfl
  | cons r rs ih =>
    rw [List.flatMap_cons, List.append_assoc, walk_wire_append F (h r List.mem_cons_self),
      ih fun q hq => h q (List.mem_cons_of_mem r hq)]
    rfl

theorem Tiling.walk_eq {bs : List α} {rs : List (Record α τ)} (h : Tiling F bs rs) :
    walk F bs = (true, rs) := by
  induction h with
  | rest hlt => exact walk_of_lt F hlt
  | @cut r hv hp =>
    have hread := readHead_wire F hv []
    have hfirst := firstRecord_wire F [] hv (.inr ⟨by omega, rfl⟩)
    rw [List.append_nil] at hread hfirst
    have hlen := Tlv.length_wire F r
    rw [walk_of_room F (by omega) (by rw [hread]; simp only; omega), hfirst]
    have hnil : (wire F r).drop (stride F r) = [] := by
      rw [List.drop_eq_nil_iff, hlen, stride]
      omega
    rw [hnil, walk_of_lt F (by simpa only [List.length_nil] using F.headSize_pos)]
  | full hr _ ih => rw [walk_wire_append F hr, ih]

/-- **The walk accepts exactly the tilings.** -/
theorem walk_eq_true_iff {bs : List α} {rs : List (Record α τ)} :
    walk F bs = (true, rs) ↔ Tiling F bs rs :=
  ⟨Tiling.of_walk F, Tiling.walk_eq F⟩

/-- A stream has at most one tiling. -/
theorem Tiling.unique {bs : List α} {rs rs' : List (Record α τ)} (h : Tiling F bs rs)
    (h' : Tiling F bs rs') : rs = rs' :=
  congrArg Prod.snd ((h.walk_eq F).symm.trans (h'.walk_eq F))

/-- What lies in front of a record of a tiling is full records; what lies behind it is tiled by the
records behind it, unless its own padding is cut. -/
theorem Tiling.exists_split {bs : List α} {pre behind : List (Record α τ)} {r : Record α τ}
    (h : Tiling F bs (pre ++ r :: behind)) :
    (∀ q ∈ pre, Full F q) ∧ r.value.length < F.limit ∧
      ∃ rest, bs = pre.flatMap (wire F) ++ (wire F r ++ rest) ∧
        (behind = [] ∧ rest = [] ∨ Full F r ∧ Tiling F rest behind) := by
  induction pre generalizing bs with
  | nil =>
    refine ⟨by simp, ?_⟩
    rw [List.nil_append] at h
    cases h with
    | cut hv _ => exact ⟨hv, [], by simp, .inl ⟨rfl, rfl⟩⟩
    | full hr h => exact ⟨hr.value_lt, _, rfl, .inr ⟨hr, h⟩⟩
  | cons q pre ih =>
    rw [List.cons_append] at h
    generalize hqs : pre ++ r :: behind = qs at h
    cases h with
    | cut _ _ => simp at hqs
    | full hq h =>
      subst hqs
      obtain ⟨hfull, hv, rest, rfl, hrest⟩ := ih h
      refine ⟨?_, hv, rest, ?_, hrest⟩
      · intro p hp
        rcases List.mem_cons.1 hp with rfl | hp
        · exact hq
        · exact hfull p hp
      · rw [List.flatMap_cons, List.append_assoc]

/-- Full records end to end are their own tiling. -/
theorem tiling_flatMap {rs : List (Record α τ)} (h : ∀ r ∈ rs, Full F r) :
    Tiling F (rs.flatMap (wire F)) rs := by
  induction rs with
  | nil => exact .rest (by simpa only [List.flatMap_nil, List.length_nil] using F.headSize_pos)
  | cons r rs ih =>
    rw [List.flatMap_cons]
    exact .full (h r List.mem_cons_self) (ih fun q hq => h q (List.mem_cons_of_mem r hq))

/-- A tiling by full records is these records and what is left over. -/
theorem Tiling.exists_rest {bs : List α} {rs : List (Record α τ)} (h : Tiling F bs rs)
    (hrs : ∀ r ∈ rs, Full F r) :
    ∃ rest, bs = rs.flatMap (wire F) ++ rest ∧ rest.length < F.headSize := by
  induction h with
  | @rest bs hlt => exact ⟨bs, rfl, hlt⟩
  | cut _ hp => exact absurd (hrs _ (List.mem_singleton_self _)).padding_eq (Nat.ne_of_lt hp)
  | full _ _ ih =>
    obtain ⟨rest, rfl, hlt⟩ := ih fun q hq => hrs q (List.mem_cons_of_mem _ hq)
    exact ⟨rest, by rw [List.flatMap_cons, List.append_assoc], hlt⟩

/-- Where padding and head are at most `a` symbols, the strides of a tiling miss the length of the
stream by less than `a`: by what is left over, or by the padding that is cut. -/
theorem Tiling.sum_stride_near {a : Nat} (hhead : F.headSize ≤ a) (hpad : ∀ n, F.pad n < a)
    {bs : List α} {rs : List (Record α τ)} (h : Tiling F bs rs) :
    bs.length < (rs.map (stride F)).sum + a ∧ (rs.map (stride F)).sum < bs.length + a := by
  induction h with
  | rest hlt =>
    rw [List.map_nil, List.sum_nil]
    omega
  | @cut r _ hp =>
    have hlt := hpad r.value.length
    rw [List.map_singleton, List.sum_singleton, Tlv.length_wire, stride]
    omega
  | @full r bs rs hr _ ih =>
    rw [List.map_cons, List.sum_cons, List.length_append, hr.length_wire]
    omega

/-- Every record of a tiling takes at least its head. -/
theorem Tiling.length_mul_headSize_le {bs : List α} {rs : List (Record α τ)}
    (h : Tiling F bs rs) : rs.length * F.headSize ≤ bs.length := by
  induction h with
  | rest => simp
  | @cut r =>
    rw [List.length_singleton, Nat.one_mul, Tlv.length_wire]
    omega
  | @full r bs rs hr _ ih =>
    rw [List.length_cons, Nat.add_one_mul, List.length_append, Tlv.length_wire]
    omega

theorem length_flatMap_wire {rs : List (Record α τ)} (h : ∀ r ∈ rs, Full F r) :
    (rs.flatMap (wire F)).length = (rs.map (stride F)).sum := by
  rw [List.length_flatMap]
  congr 1
  exact List.map_congr_left fun r hr => (h r hr).length_wire

/-- In front of a record, a tiling takes the strides of the records before it. -/
theorem Tiling.sum_stride_le {bs : List α} {pre behind : List (Record α τ)} {r : Record α τ}
    (h : Tiling F bs (pre ++ r :: behind)) :
    (pre.map (stride F)).sum + F.headSize + r.value.length ≤ bs.length := by
  obtain ⟨hfull, -, rest, rfl, -⟩ := h.exists_split
  rw [List.length_append, List.length_append, length_flatMap_wire F hfull, Tlv.length_wire]
  omega

/-- A walk reads a value that is all there, with as much of its padding as follows. -/
theorem exists_walk_value {r : Record α τ} (hv : r.value.length < F.limit) (tail : List α) :
    ∃ padding behind, (walk F (F.head r.tag r.value.length ++ r.value ++ tail)).2 =
      ⟨r.tag, r.value, padding⟩ :: behind := by
  have hlen := F.length_head r.tag r.value.length
  have hpadding : (tail.take (F.pad r.value.length)).length = F.pad r.value.length ∨
      (tail.take (F.pad r.value.length)).length ≤ F.pad r.value.length ∧
        tail.drop (F.pad r.value.length) = [] := by
    rw [List.length_take, List.drop_eq_nil_iff]
    omega
  have hsplit : F.head r.tag r.value.length ++ r.value ++ tail =
      wire F ⟨r.tag, r.value, tail.take (F.pad r.value.length)⟩ ++
        tail.drop (F.pad r.value.length) := by
    simp only [wire, List.append_assoc, List.take_append_drop]
  have hread := readHead_wire F (r := ⟨r.tag, r.value, tail.take (F.pad r.value.length)⟩) hv
    (tail.drop (F.pad r.value.length))
  have hfirst := firstRecord_wire F (r := ⟨r.tag, r.value, tail.take (F.pad r.value.length)⟩)
    (tail.drop (F.pad r.value.length)) hv hpadding
  rw [← hsplit] at hread hfirst
  have hroom : F.headSize + r.value.length ≤
      (F.head r.tag r.value.length ++ r.value ++ tail).length := by
    simp only [List.length_append]
    omega
  have hwalk := walk_of_room F (Nat.le_of_add_right_le hroom)
    (by rw [hread]; exact Nat.not_lt.2 (Nat.le_sub_of_add_le' hroom))
  rw [hfirst] at hwalk
  exact ⟨_, _, congrArg Prod.snd hwalk⟩

/-- The part of a stream up to the end of a value, behind full records. -/
theorem take_flatMap_wire {pre : List (Record α τ)} (h : ∀ q ∈ pre, Full F q) (r : Record α τ)
    (tail : List α) :
    (pre.flatMap (wire F) ++ (wire F r ++ tail)).take
        ((pre.map (stride F)).sum + F.headSize + r.value.length) =
      pre.flatMap (wire F) ++ (F.head r.tag r.value.length ++ r.value) := by
  have hpre := length_flatMap_wire F h
  have hhead := F.length_head r.tag r.value.length
  have hsplit : pre.flatMap (wire F) ++ (wire F r ++ tail) =
      (pre.flatMap (wire F) ++ (F.head r.tag r.value.length ++ r.value)) ++
        (r.padding ++ tail) := by
    simp only [wire, List.append_assoc]
  rw [hsplit, List.take_left']
  simp only [List.length_append]
  omega

/-- Streams that agree up to the end of a value have the same records up to that value. -/
theorem Tiling.exists_of_take_eq {bs cs : List α} {pre behind qs : List (Record α τ)}
    {r : Record α τ} (h : Tiling F bs (pre ++ r :: behind)) (h' : Tiling F cs qs)
    (htake : cs.take ((pre.map (stride F)).sum + F.headSize + r.value.length) =
      bs.take ((pre.map (stride F)).sum + F.headSize + r.value.length)) :
    ∃ padding behind', qs = pre ++ ⟨r.tag, r.value, padding⟩ :: behind' := by
  obtain ⟨hfull, hv, rest, rfl, -⟩ := h.exists_split
  rw [take_flatMap_wire F hfull] at htake
  obtain ⟨tail, rfl⟩ : ∃ tail, cs = pre.flatMap (wire F) ++
      (F.head r.tag r.value.length ++ r.value ++ tail) := by
    refine ⟨cs.drop ((pre.map (stride F)).sum + F.headSize + r.value.length), ?_⟩
    rw [← List.append_assoc, ← htake, List.take_append_drop]
  obtain ⟨padding, behind', hwalk⟩ := exists_walk_value F hv tail
  refine ⟨padding, behind', ?_⟩
  have hqs := congrArg Prod.snd (h'.walk_eq F)
  rw [walk_flatMap_append F hfull, hwalk] at hqs
  exact hqs.symm

/-! ## Places -/

/-- Where a value lies: its tag, its length and the offset of its first symbol. -/
structure Place (τ : Type*) where
  tag : τ
  len : Nat
  off : Nat
deriving DecidableEq

/-- The places of the records of a stream that starts at `off`. -/
def layout (off : Nat) : List (Record α τ) → List (Place τ)
  | [] => []
  | r :: rs => ⟨r.tag, r.value.length, off + F.headSize⟩ :: layout (off + stride F r) rs

theorem layout_append (off : Nat) (pre rs : List (Record α τ)) :
    layout F off (pre ++ rs) =
      layout F off pre ++ layout F (off + (pre.map (stride F)).sum) rs := by
  induction pre generalizing off with
  | nil => rfl
  | cons r pre ih =>
    rw [List.cons_append, layout, ih, layout, List.map_cons, List.sum_cons, Nat.add_assoc off]
    rfl

/-- A place belongs to a record of the stream. -/
theorem exists_of_mem_layout {off : Nat} {rs : List (Record α τ)} {p : Place τ}
    (hp : p ∈ layout F off rs) : ∃ r ∈ rs, p.tag = r.tag ∧ p.len = r.value.length := by
  induction rs generalizing off with
  | nil => cases hp
  | cons r rs ih =>
    rcases List.mem_cons.1 hp with rfl | hp
    · exact ⟨r, List.mem_cons_self, rfl, rfl⟩
    · obtain ⟨q, hq, htag, hlen⟩ := ih hp
      exact ⟨q, List.mem_cons_of_mem r hq, htag, hlen⟩

/-- A place lies behind the strides of the records in front of its own. -/
theorem exists_split_of_mem_layout {off : Nat} {rs : List (Record α τ)} {p : Place τ}
    (hp : p ∈ layout F off rs) :
    ∃ pre r behind, rs = pre ++ r :: behind ∧
      p = ⟨r.tag, r.value.length, off + (pre.map (stride F)).sum + F.headSize⟩ := by
  induction rs generalizing off with
  | nil => cases hp
  | cons r rs ih =>
    rcases List.mem_cons.1 hp with rfl | hp
    · exact ⟨[], r, rs, rfl, rfl⟩
    · obtain ⟨pre, q, behind, rfl, rfl⟩ := ih hp
      refine ⟨r :: pre, q, behind, rfl, ?_⟩
      rw [List.map_cons, List.sum_cons, Nat.add_assoc off]

theorem le_off_of_mem_layout {off : Nat} {rs : List (Record α τ)} {p : Place τ}
    (hp : p ∈ layout F off rs) : off + F.headSize ≤ p.off := by
  induction rs generalizing off with
  | nil => cases hp
  | cons r rs ih =>
    rcases List.mem_cons.1 hp with rfl | hp
    · exact Nat.le_refl _
    · have := ih hp
      omega

/-- Successive places are in order and leave room for a head between them. -/
theorem layout_isChain (off : Nat) (rs : List (Record α τ)) :
    (layout F off rs).IsChain fun p q => p.off + p.len + F.headSize ≤ q.off := by
  induction rs generalizing off with
  | nil => exact .nil
  | cons r rs ih =>
    have htail := ih (off + stride F r)
    cases rs with
    | nil => exact .singleton _
    | cons q rs =>
      refine .cons_cons ?_ htail
      simp only [stride]
      omega

theorem dvd_off_of_mem_layout {a off : Nat} {rs : List (Record α τ)} (hhead : a ∣ F.headSize)
    (hpad : ∀ n, a ∣ n + F.pad n) (hoff : a ∣ off) {p : Place τ} (hp : p ∈ layout F off rs) :
    a ∣ p.off := by
  induction rs generalizing off with
  | nil => cases hp
  | cons r rs ih =>
    rcases List.mem_cons.1 hp with rfl | hp
    · exact Nat.dvd_add hoff hhead
    · refine ih ?_ hp
      rw [stride, Nat.add_assoc]
      exact Nat.dvd_add hoff (Nat.dvd_add hhead (hpad _))

/-- A walk, accepting or not, only reports values that lie inside the stream. -/
theorem walk_place_le (bs : List α) {off : Nat} {p : Place τ}
    (hp : p ∈ layout F off (walk F bs).2) : p.off + p.len ≤ off + bs.length := by
  induction bs using walk_induction F generalizing off with
  | stop bs hlt =>
    rw [walk_of_lt F hlt] at hp
    cases hp
  | short bs hle hn =>
    rw [walk_of_short F hle hn] at hp
    cases hp
  | room bs hle hn ih =>
    rw [walk_of_room F hle hn] at hp
    have hlen := length_firstRecord_value F hn
    rcases List.mem_cons.1 hp with rfl | hp
    · simp only [hlen]
      omega
    · have hle' := ih hp
      have hoff := le_off_of_mem_layout F hp
      have hpos := F.headSize_pos
      rw [List.length_drop] at hle'
      omega

/-- The values a walk reports are what the stream holds at their places. -/
theorem walk_read (bs pre : List α) :
    (layout F pre.length (walk F bs).2).map (fun p => (p.tag, slice (pre ++ bs) p.off p.len)) =
      (walk F bs).2.map fun r => (r.tag, r.value) := by
  induction bs using walk_induction F generalizing pre with
  | stop bs hlt => rw [walk_of_lt F hlt]; rfl
  | short bs hle hn => rw [walk_of_short F hle hn]; rfl
  | room bs hle hn ih =>
    rw [walk_of_room F hle hn]
    have hvalue : slice (pre ++ bs) (pre.length + F.headSize)
        (firstRecord F bs).value.length = (firstRecord F bs).value := by
      rw [length_firstRecord_value F hn, slice, ← List.drop_drop, List.drop_left]
      rfl
    simp only [layout, List.map_cons, hvalue]
    congr 1
    by_cases hlt : stride F (firstRecord F bs) ≤ bs.length
    · have hih := ih (pre ++ bs.take (stride F (firstRecord F bs)))
      rw [List.append_assoc, List.take_append_drop, List.length_append, List.length_take,
        Nat.min_eq_left hlt] at hih
      exact hih
    · rw [List.drop_of_length_le (by omega),
        walk_of_lt F (by simpa only [List.length_nil] using F.headSize_pos)]
      rfl

/-! ## Streams that agree tag by tag -/

/-- Lists that agree on the items of every key agree up to their order. -/
theorem perm_of_filter_eq {β κ : Type*} [DecidableEq β] [DecidableEq κ] (key : β → κ)
    {xs ys : List β}
    (h : ∀ k, xs.filter (fun x => key x == k) = ys.filter fun y => key y == k) : xs.Perm ys := by
  rw [List.perm_iff_count]
  intro b
  have hkey : (key b == key b) = true := beq_self_eq_true _
  have hcount := congrArg (List.count b) (h (key b))
  rwa [List.count_filter (p := fun x => key x == key b) hkey,
    List.count_filter (p := fun y => key y == key b) hkey] at hcount

/-- A record without its padding. -/
def Record.content (r : Record α τ) : τ × List α := (r.tag, r.value)

/-- The same values of every tag, in the same order. -/
def SameByTag [DecidableEq τ] (rs rs' : List (Record α τ)) : Prop :=
  ∀ t, (rs.filter fun r => r.tag == t).map Record.content =
    (rs'.filter fun r => r.tag == t).map Record.content

namespace SameByTag

variable [DecidableEq α] [DecidableEq τ] {rs rs' : List (Record α τ)} (h : SameByTag rs rs')

include h

theorem perm : (rs.map Record.content).Perm (rs'.map Record.content) := by
  apply perm_of_filter_eq Prod.fst
  intro t
  rw [List.filter_map, List.filter_map]
  exact h t

/-- The streams have the same size, if no padding is cut. -/
theorem sum_stride_eq : (rs.map (stride F)).sum = (rs'.map (stride F)).sum := by
  have hsizes := (h.perm.map fun p => F.headSize + p.2.length + F.pad p.2.length).sum_eq
  rwa [List.map_map, List.map_map] at hsizes

end SameByTag

end Tlv
