import Stunxx.StunMessageBuilder
import Stunxx.Verify.Contents

/-!
# The encoder and the end of the buffer

An add checks the room for its attribute, and the message it extends has at least the twenty bytes
of a header, so a successful add also proves that the header fits. `finalize` writes a header
without any check: a buffer shorter than a header is overrun exactly when `finalize` is called on
it. The builder adds no write of its own.
-/

namespace Stunxx

open Overlay Machine

namespace Encoder

/-! ## Where one call writes -/

/-- An attribute whose size fits 16 bits is written where it was found to have room. -/
theorem append_stray {α : Type} [AttributeSpec α] (e : Encoder) {a : α}
    (hready : AttributeSpec.ready a = true) (hvalue : AttributeSpec.valueSize a < 65536)
    (hroom : e.offset + padded a ≤ e.buffer.bytes.length) :
    (e.append a).buffer.stray = e.buffer.stray := by
  apply Memory.storeAll_stray
  intro s hs
  rcases List.mem_cons.1 hs with rfl | hs
  · rw [memcpy_dst, memcpy_items, length_writeHeader]
    rw [padded, attrHeaderSize] at hroom
    omega
  · have hreach := AttributeSpec.body_reach a hready (AttributeSpec.not_truncates a hvalue) s hs
    rw [padded] at hroom
    omega

section Bounds

variable [Platform]

theorem writeLength_stray {e : Encoder} (h : 20 ≤ e.buffer.bytes.length) (n : UInt16) :
    (e.writeLength n).buffer.stray = e.buffer.stray := by
  apply Memory.store_stray
  rwa [StunHeader.length_bytes]

/-- A header written to a buffer that is too short for it ends behind the buffer. -/
theorem mem_stray_writeLength {e : Encoder} (h : e.buffer.bytes.length < 20) (n : UInt16) :
    19 ∈ (e.writeLength n).buffer.stray := by
  apply List.mem_append_right
  rw [StunHeader.length_bytes, stunHeaderSize, List.mem_filter, List.mem_range'_1]
  exact ⟨by omega, by simpa using Nat.le_of_lt_succ h⟩

/-- An announced attribute is written in bounds with its header. -/
theorem announce_append_stray {α : Type} [AttributeSpec α] {e : Encoder} {n : Nat} {a : α}
    (hoff : 20 ≤ e.offset) (hready : AttributeSpec.ready a = true)
    (hvalue : AttributeSpec.valueSize a < 65536) (hpad : padded a = n)
    (hroom : e.offset + n ≤ e.buffer.bytes.length) :
    ((e.announce n).append a).buffer.stray = e.buffer.stray := by
  rw [append_stray _ hready hvalue (by rwa [length_announce, announce_offset, hpad])]
  exact writeLength_stray (by omega) _

/-- An add writes in bounds, whatever it amounts to. -/
theorem Outcome.stray {e e' : Encoder} {c : AddCall} {r : AddResult} (h : Outcome e c r e')
    (hoff : 20 ≤ e.offset) (hshort : c.Short) : e'.buffer.stray = e.buffer.stray := by
  cases h with
  | refused => rfl
  | announced hroom => exact writeLength_stray (by omega) _
  | @ordinary a hroom => exact append_stray e a.ready (Nat.lt_succ_of_le hshort) hroom
  | integrity hroom _ hsize =>
    obtain ⟨hready, hvalue⟩ := ready_ofHmac hsize
    exact announce_append_stray hoff hready hvalue (padded_of_hmac hsize) hroom
  | fingerprint hroom =>
    exact announce_append_stray hoff rfl (valueSize_fingerprint_lt _) (padded_fingerprint _) hroom

/-! ## Over a run -/

/-- The invariant, and nothing was written behind the buffer. -/
structure Safe (type : UInt16) (tid : TransactionId) (size : Nat) (e : Encoder) : Prop
    extends Inv type tid size e where
  stray_eq : e.buffer.stray = []

/-- The invariant, and the last byte of a header was written behind the buffer. -/
structure Overrun (type : UInt16) (tid : TransactionId) (size : Nat) (e : Encoder) : Prop
    extends Inv type tid size e where
  mem_stray : 19 ∈ e.buffer.stray

section Run

variable {type : UInt16} {tid : TransactionId} {size : Nat} {e : Encoder} {calls : List Call}

theorem Safe.finalize (h : Safe type tid size e) (hsize : 20 ≤ size) :
    Safe type tid size e.finalize := by
  refine ⟨h.toInv.finalize, ?_⟩
  by_cases hs : e.Sealed
  · rw [finalize_of_sealed hs, h.stray_eq]
  · rw [finalize_of_not_sealed hs, writeLength_stray (h.header_room hsize), h.stray_eq]

/-- A run that calls `finalize` only where a header fits stays safe. -/
theorem Safe.run (h : Safe type tid size e) (hshort : ∀ call ∈ calls, call.Short)
    (hsize : .finalize ∈ calls → 20 ≤ size) : Safe type tid size (run step e calls).2 := by
  refine run_invariant step ?_ h
  intro f call hcall hf
  cases call with
  | add c =>
    have hout := add_outcome f c
    have hstray := hout.stray hf.le_offset (hshort _ hcall)
    exact ⟨hf.toInv.outcome hout, hstray.trans hf.stray_eq⟩
  | finalize => exact hf.finalize (hsize hcall)

/-- Whatever `finalize` is called on, it writes a header behind a buffer that is too short. -/
theorem Inv.overrun_finalize (h : Inv type tid size e) (hsize : size < 20) :
    Overrun type tid size e.finalize := by
  have hs : ¬e.Sealed := fun hs => absurd (h.le_size hs) (by omega)
  refine ⟨h.finalize, ?_⟩
  rw [finalize_of_not_sealed hs]
  exact mem_stray_writeLength (by rwa [h.length_eq]) _

/-- A buffer that is too short for a header takes no attribute. -/
theorem Outcome.eq_of_short {e' : Encoder} {c : AddCall} {r : AddResult} (h : Outcome e c r e')
    (hinv : Inv type tid size e) (hsize : size < 20) : e' = e := by
  have hlen := hinv.length_eq
  have hoff := hinv.le_offset
  cases h with
  | refused => rfl
  | announced hroom => omega
  | ordinary hroom => omega
  | integrity hroom => omega
  | fingerprint hroom => omega

theorem Overrun.run (h : Overrun type tid size e) (hsize : size < 20) (calls : List Call) :
    Overrun type tid size (run step e calls).2 := by
  refine run_invariant step ?_ h
  intro f call _ hf
  cases call with
  | add c =>
    have hsame := (add_outcome f c).eq_of_short hf.toInv hsize
    change Overrun type tid size (f.add c).2
    rwa [hsame]
  | finalize => exact hf.toInv.overrun_finalize hsize

theorem Inv.overrun_run (h : Inv type tid size e) (hsize : size < 20)
    (hfinal : .finalize ∈ calls) : Overrun type tid size (Machine.run step e calls).2 := by
  obtain ⟨before, after, rfl⟩ := List.append_of_mem hfinal
  have hreached := h.run before
  rw [run_append, run_cons]
  exact (hreached.overrun_finalize hsize).run hsize after

/-- Every byte was written inside the buffer, and the message ends inside it once `finalize` was
called. -/
structure InBounds (calls : List Call) (size : Nat) (e : Encoder) : Prop where
  stray_eq : e.buffer.stray = []
  totalSize_le : .finalize ∈ calls → e.totalSize ≤ size

/-- The runs of an encoder that stay in the buffer. -/
theorem Safe.inBounds_iff (h : Safe type tid size e) (hshort : ∀ call ∈ calls, call.Short) :
    InBounds calls size (Machine.run step e calls).2 ↔ 20 ≤ size ∨ .finalize ∉ calls := by
  constructor
  · intro hin
    by_contra hcond
    rw [not_or, not_le, not_not] at hcond
    obtain ⟨hsize, hfinal⟩ := hcond
    have hover := (h.toInv.overrun_run hsize hfinal).mem_stray
    rw [hin.stray_eq] at hover
    cases hover
  · intro hcond
    have hsize : .finalize ∈ calls → 20 ≤ size := hcond.resolve_right ∘ not_not.2
    have hsafe := h.run hshort hsize
    refine ⟨hsafe.stray_eq, fun hfinal => ?_⟩
    have hle := hsafe.offset_le
    rwa [Nat.max_eq_right (hsize hfinal)] at hle

theorem safe_new (type : UInt16) (tid : TransactionId) (buffer : Bytes) :
    Safe type tid buffer.length (new type tid buffer) := ⟨inv_new type tid buffer, rfl⟩

/-- **No call writes outside the buffer**, unless `finalize` is called on one that is too short for
a header: neither on an encoder nor on a builder. -/
theorem writes_in_bounds_iff (tid : TransactionId) (buffer : Bytes)
    (hshort : ∀ call ∈ calls, call.Short) :
    (∀ type, InBounds calls buffer.length (Machine.run step (new type tid buffer) calls).2 ↔
      20 ≤ buffer.length ∨ .finalize ∉ calls) ∧
    ∀ method cls, InBounds calls buffer.length
        (Machine.run StunMessageBuilder.step (.new method cls tid buffer) calls).2.encoder ↔
      20 ≤ buffer.length ∨ .finalize ∉ calls := by
  constructor
  · intro type
    exact (safe_new type tid buffer).inBounds_iff hshort
  · intro method cls
    obtain ⟨passed, hsub, hkept, hrun⟩ :=
      StunMessageBuilder.exists_run (.new method cls tid buffer) calls
    have hsafe : Safe (method ||| cls) tid buffer.length
        (StunMessageBuilder.new method cls tid buffer).encoder := safe_new _ _ _
    have hfinal : Call.finalize ∈ passed ↔ .finalize ∈ calls := ⟨fun h => hsub.subset h, hkept⟩
    have hiff := hsafe.inBounds_iff fun call hcall => hshort call (hsub.subset hcall)
    rw [hfinal] at hiff
    rw [hrun, ← hiff]
    constructor
    · rintro ⟨hstray, htotal⟩
      exact ⟨hstray, htotal ∘ hfinal.1⟩
    · rintro ⟨hstray, htotal⟩
      exact ⟨hstray, htotal ∘ hfinal.2⟩

end Run

end Bounds

local instance boundsHost : Platform := .ofDigest []

/-- A PRIORITY, a SOFTWARE that does not fit, and a FINGERPRINT that does, on an encoder and on a
builder, which does not pass the FINGERPRINT on. -/
theorem writes_in_bounds_iff_priority :
    let calls : List Call := [.add (.ordinary ⟨.priority, rfl, ⟨7⟩⟩),
      .add (.ordinary ⟨.software, rfl, ⟨List.replicate 12 0x61⟩⟩), .add .fingerprint, .finalize]
    InBounds calls 36
        (Machine.run step (new 0x0001 (ByteArrayN.zero 12) (List.replicate 36 0)) calls).2 ∧
      InBounds calls 36 (Machine.run StunMessageBuilder.step
        (.new 0x0001 0x0000 (ByteArrayN.zero 12) (List.replicate 36 0)) calls).2.encoder := by
  intro calls
  have hshort : ∀ call ∈ calls, call.Short := by
    intro call hcall
    simp only [calls, List.mem_cons, List.not_mem_nil, or_false] at hcall
    rcases hcall with rfl | rfl | rfl | rfl
    · exact Nat.le_of_ble_eq_true rfl
    · exact Nat.le_of_ble_eq_true rfl
    · trivial
    · trivial
  have hall := writes_in_bounds_iff (ByteArrayN.zero 12) (List.replicate 36 0) hshort
  exact ⟨(hall.1 0x0001).2 (.inl (by decide)), (hall.2 0x0001 0x0000).2 (.inl (by decide))⟩

/-- `finalize` writes a header into a buffer of twelve bytes, eight of them behind it. -/
theorem finalize_overruns :
    (Machine.run step (new 0x0001 (ByteArrayN.zero 12) (List.replicate 12 0))
        [.finalize]).2.buffer.stray = List.range' 12 8 ∧
      ¬InBounds [.finalize] 12
        (Machine.run step (new 0x0001 (ByteArrayN.zero 12) (List.replicate 12 0))
          [.finalize]).2 ∧
      ¬InBounds [.finalize] 12
        (Machine.run StunMessageBuilder.step
          (.new 0x0001 0x0000 (ByteArrayN.zero 12) (List.replicate 12 0))
          [.finalize]).2.encoder := by
  refine ⟨by decide +kernel, ?_, ?_⟩
  · rintro ⟨hstray, -⟩
    revert hstray
    decide +kernel
  · rintro ⟨hstray, -⟩
    revert hstray
    decide +kernel

end Encoder

end Stunxx
