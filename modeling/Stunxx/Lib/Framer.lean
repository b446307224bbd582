import Stunxx.Lib.Machine

/-!
# Packets cut out of a stream

A framer looks at the front of a stream and says which packet starts there and how many symbols it
takes, or that it cannot say yet; what it has said stays true when more arrives. `drain` cuts off
packets while there are any, and `receive` keeps what is left until the next chunk arrives. The
packets do not depend on how the stream was cut into chunks (`run_receive`), and packets that are
recognised one by one are recognised end to end (`exists_drain_flatMap`).
-/

structure Framer (α π : Type*) where
  next : List α → Option (π × Nat)
  pos : ∀ {bs : List α} {p : π} {n : Nat}, next bs = some (p, n) → 0 < n
  le_length : ∀ {bs : List α} {p : π} {n : Nat}, next bs = some (p, n) → n ≤ bs.length
  stable : ∀ {bs : List α} {p : π} {n : Nat}, next bs = some (p, n) →
    ∀ more, next (bs ++ more) = some (p, n)

namespace Framer

variable {α π : Type*} (F : Framer α π)

/-- The packets at the front of the stream, and what is left behind them. -/
def drain (bs : List α) : List π × List α :=
  match _h : F.next bs with
  | none => ([], bs)
  | some (p, n) =>
    let (ps, rest) := drain (bs.drop n)
    (p :: ps, rest)
termination_by bs.length
decreasing_by
  have hpos := F.pos _h
  have hle := F.le_length _h
  rw [List.length_drop]
  omega

theorem drain_of_none {bs : List α} (h : F.next bs = none) : F.drain bs = ([], bs) := by
  unfold drain
  split
  · rfl
  · next p n hnext => cases h.symm.trans hnext

theorem drain_of_some {bs : List α} {p : π} {n : Nat} (h : F.next bs = some (p, n)) :
    F.drain bs = (p :: (F.drain (bs.drop n)).1, (F.drain (bs.drop n)).2) := by
  conv_lhs => unfold drain
  split
  · next hnext => cases h.symm.trans hnext
  · next p' n' hnext =>
    cases h.symm.trans hnext
    rfl

/-- A property of streams that holds of those that start with no packet, and that a packet in front
does not change, holds of all streams. -/
theorem stream_induction {P : List α → Prop} (none : ∀ bs, F.next bs = none → P bs)
    (some : ∀ bs p n, F.next bs = some (p, n) → P (bs.drop n) → P bs) (bs : List α) : P bs := by
  induction hk : bs.length using Nat.strongRecOn generalizing bs with
  | ind k ih =>
    cases hnext : F.next bs with
    | none => exact none bs hnext
    | some pn =>
      obtain ⟨p, n⟩ := pn
      have hpos := F.pos hnext
      have hle := F.le_length hnext
      refine some bs p n hnext (ih (bs.drop n).length ?_ _ rfl)
      rw [List.length_drop]
      omega

/-- What is left starts with no packet. -/
theorem next_rest (bs : List α) : F.next (F.drain bs).2 = none := by
  induction bs using F.stream_induction with
  | none bs h => rwa [F.drain_of_none h]
  | some bs p n h ih => rwa [F.drain_of_some h]

/-- The symbols of the stream are the packets' and those left, in order. -/
theorem exists_pieces (bs : List α) :
    ∃ pieces, bs = pieces.flatten ++ (F.drain bs).2 ∧
      List.Forall₂ (fun p piece => ∃ more, F.next (piece ++ more) = some (p, piece.length))
        (F.drain bs).1 pieces := by
  induction bs using F.stream_induction with
  | none bs h =>
    rw [F.drain_of_none h]
    exact ⟨[], rfl, .nil⟩
  | some bs p n h ih =>
    obtain ⟨pieces, heq, hall⟩ := ih
    have hlen : (bs.take n).length = n := by
      rw [List.length_take, Nat.min_eq_left (F.le_length h)]
    rw [F.drain_of_some h]
    refine ⟨bs.take n :: pieces, ?_, .cons ⟨bs.drop n, ?_⟩ hall⟩
    · rw [List.flatten_cons, List.append_assoc, ← heq, List.take_append_drop]
    · rw [List.take_append_drop, hlen, h]

/-- Draining what has arrived first changes nothing. -/
theorem drain_append (bs more : List α) :
    F.drain (bs ++ more) =
      ((F.drain bs).1 ++ (F.drain ((F.drain bs).2 ++ more)).1,
        (F.drain ((F.drain bs).2 ++ more)).2) := by
  induction bs using F.stream_induction with
  | none bs h =>
    rw [F.drain_of_none h]
    rfl
  | some bs p n h ih =>
    rw [F.drain_of_some (F.stable h more), List.drop_append_of_le_length (F.le_length h), ih,
      F.drain_of_some h]
    rfl

/-- Packets that are recognised one by one are cut out end to end. -/
theorem exists_drain_flatMap {ι : Type*} {enc : ι → List α} {R : ι → π → Prop} {xs : List ι}
    (h : ∀ x ∈ xs, ∃ p, F.next (enc x) = some (p, (enc x).length) ∧ R x p) (rest : List α) :
    ∃ ps, F.drain (xs.flatMap enc ++ rest) = (ps ++ (F.drain rest).1, (F.drain rest).2) ∧
      List.Forall₂ R xs ps := by
  induction xs with
  | nil => exact ⟨[], rfl, .nil⟩
  | cons x xs ih =>
    obtain ⟨p, hp, hR⟩ := h x List.mem_cons_self
    obtain ⟨ps, hps, hall⟩ := ih fun y hy => h y (List.mem_cons_of_mem x hy)
    refine ⟨p :: ps, ?_, .cons hR hall⟩
    rw [List.flatMap_cons, List.append_assoc, F.drain_of_some (F.stable hp _),
      List.drop_left' rfl, hps]
    rfl

/-! ## Chunks -/

/-- A chunk arrives behind what is left: the packets it completes, and what is left now. -/
def receive (pending chunk : List α) : List π × List α := F.drain (pending ++ chunk)

/-- **Chunks do not matter**: however a stream is cut, the packets and the rest are those of the
whole stream. -/
theorem run_receive {pending : List α} (h : F.next pending = none) (chunks : List (List α)) :
    ((Machine.run F.receive pending chunks).1.flatten, (Machine.run F.receive pending chunks).2) =
      F.drain (pending ++ chunks.flatten) := by
  induction chunks generalizing pending with
  | nil =>
    rw [List.flatten_nil, List.append_nil, F.drain_of_none h]
    rfl
  | cons chunk chunks ih =>
    have htail := ih (F.next_rest (pending ++ chunk))
    rw [List.flatten_cons, ← List.append_assoc, F.drain_append, ← htail]
    rfl

end Framer
