import Stunxx.Verify.EncoderInv

/-!
# The message does not depend on the buffer

An attribute whose size fits in 16 bits fills the slot it is given and nothing else
(`append_bytes`); a header is written whole. So two encoders that hold the same message on
different buffers (`Agree`) stay so under every call, and what lies behind the message is what the
buffer held at first.
-/

namespace Stunxx

open Overlay Machine

/-- The value a call carries is at most 65535 bytes long. -/
def AddCall.Short [Platform] : AddCall → Prop
  | .ordinary a => a.valueSize ≤ 65535
  | .integrity .. | .fingerprint => True

/-- The values of a call are at most 65535 bytes long. -/
def Call.Short [Platform] : Call → Prop
  | .add c => c.Short
  | .finalize => True

namespace Encoder

/-! ## Behind the message -/

/-- Behind the message lies what the buffer held at first. -/
def Untouched (initial : Bytes) (e : Encoder) : Prop :=
  e.buffer.bytes.drop e.offset = initial.drop e.offset

theorem Untouched.append {initial : Bytes} {e : Encoder} (h : Untouched initial e) {α : Type}
    [AttributeSpec α] {a : α} (hready : AttributeSpec.ready a = true)
    (hvalue : AttributeSpec.valueSize a < 65536) : Untouched initial (e.append a) := by
  have hdrop := congrArg (List.drop (padded a)) h
  rw [List.drop_drop, List.drop_drop] at hdrop
  rw [Untouched, append_bytes e hready hvalue, append_offset, drop_overlay, hdrop]
  rw [length_slot hready hvalue]

/-- A MESSAGE-INTEGRITY with its digest encodes, and its value is short. -/
theorem ready_ofHmac {kind : IntegrityKind} {digest : Bytes}
    (hsize : digest.length = kind.expectedSize) :
    AttributeSpec.ready (MessageIntegrityAttrT.ofHmac (T := kind.type) digest) = true ∧
      AttributeSpec.valueSize (MessageIntegrityAttrT.ofHmac (T := kind.type) digest) < 65536 := by
  have hcases : kind.expectedSize = 20 ∨ kind.expectedSize = 32 :=
    MessageIntegrityAttrT.expectedSize_cases kind.type
  refine ⟨beq_iff_eq.2 hsize, ?_⟩
  have hvalue : AttributeSpec.valueSize (MessageIntegrityAttrT.ofHmac (T := kind.type) digest) =
      digest.length := rfl
  omega

section Contents

variable [Platform]

theorem Untouched.writeLength {initial : Bytes} {e : Encoder} (h : Untouched initial e)
    (hoff : 20 ≤ e.offset) (n : UInt16) : Untouched initial (e.writeLength n) := by
  have hlen := StunHeader.length_bytes (e.writeLength n).stunHeader
  rw [stunHeaderSize] at hlen
  rw [Untouched, writeLength_bytes, writeLength_offset, drop_overlay (by omega)]
  exact h

theorem valueSize_fingerprint_lt (e : Encoder) : AttributeSpec.valueSize e.fingerprint < 65536 := by
  rw [valueSize_fingerprint]
  decide

theorem Outcome.untouched {initial : Bytes} {e e' : Encoder} {c : AddCall} {r : AddResult}
    (hout : Outcome e c r e') (hc : c.Short) (hoff : 20 ≤ e.offset) (h : Untouched initial e) :
    Untouched initial e' := by
  cases hout with
  | refused => exact h
  | announced => exact h.writeLength hoff _
  | @ordinary a => exact h.append a.ready (Nat.lt_succ_of_le hc)
  | integrity _ _ hsize =>
    obtain ⟨hready, hvalue⟩ := ready_ofHmac hsize
    exact (h.writeLength hoff _).append hready hvalue
  | fingerprint => exact (h.writeLength hoff _).append rfl e.valueSize_fingerprint_lt

theorem Untouched.finalize {initial : Bytes} {e : Encoder} (h : Untouched initial e)
    (hoff : 20 ≤ e.offset) : Untouched initial e.finalize := by
  by_cases hs : e.Sealed
  · rw [finalize_of_sealed hs]
    exact h
  · rw [finalize_of_not_sealed hs]
    exact h.writeLength hoff _

/-- No run of short values writes behind the message it leaves. -/
theorem untouched_run (type : UInt16) (tid : TransactionId) (initial : Bytes) {calls : List Call}
    (hcalls : ∀ call ∈ calls, call.Short) :
    Untouched initial (run step (new type tid initial) calls).2 := by
  have hstep : ∀ e, ∀ call ∈ calls, Inv type tid initial.length e ∧ Untouched initial e →
      Inv type tid initial.length (step e call).2 ∧ Untouched initial (step e call).2 := by
    rintro e (c | _) hmem ⟨hinv, h⟩
    · have hout := add_outcome e c
      exact ⟨hinv.outcome hout, hout.untouched (hcalls _ hmem) hinv.le_offset h⟩
    · exact ⟨hinv.finalize, h.finalize hinv.le_offset⟩
  exact (run_invariant step hstep ⟨inv_new type tid initial, rfl⟩).2

end Contents

/-! ## Two buffers -/

/-- Two encoders, on buffers of one size, that hold the same message. -/
structure Agree (e f : Encoder) : Prop where
  stunHeader : e.stunHeader = f.stunHeader
  offset : e.offset = f.offset
  hasMessageIntegrity : e.hasMessageIntegrity = f.hasMessageIntegrity
  hasFingerprint : e.hasFingerprint = f.hasFingerprint
  length : e.buffer.bytes.length = f.buffer.bytes.length
  room : 20 ≤ e.buffer.bytes.length
  le_offset : 20 ≤ e.offset
  behind : slice e.buffer.bytes 20 (e.offset - 20) = slice f.buffer.bytes 20 (f.offset - 20)
  written : e.Sealed → e.buffer.bytes.take 20 = f.buffer.bytes.take 20

section Agree

variable {e f : Encoder}

theorem Agree.symm (h : Agree e f) : Agree f e where
  stunHeader := h.stunHeader.symm
  offset := h.offset.symm
  hasMessageIntegrity := h.hasMessageIntegrity.symm
  hasFingerprint := h.hasFingerprint.symm
  length := h.length.symm
  room := h.length ▸ h.room
  le_offset := h.offset ▸ h.le_offset
  behind := h.behind.symm
  written hs := by
    rw [Sealed, ← h.hasMessageIntegrity, ← h.hasFingerprint] at hs
    exact (h.written hs).symm

theorem Agree.sealed_iff (h : Agree e f) : e.Sealed ↔ f.Sealed := by
  rw [Sealed, Sealed, h.hasMessageIntegrity, h.hasFingerprint]

/-- Once the headers are written, the messages are the same bytes. -/
theorem Agree.take_eq (h : Agree e f)
    (hheader : e.buffer.bytes.take 20 = f.buffer.bytes.take 20) :
    e.buffer.bytes.take e.offset = f.buffer.bytes.take f.offset := by
  rw [take_eq_append_slice _ h.le_offset, take_eq_append_slice _ h.symm.le_offset, hheader,
    h.behind]

theorem Agree.append (h : Agree e f) {α : Type} [AttributeSpec α] {a : α}
    (hready : AttributeSpec.ready a = true) (hvalue : AttributeSpec.valueSize a < 65536)
    (hroom : e.offset + padded a ≤ e.buffer.bytes.length) : Agree (e.append a) (f.append a) where
  stunHeader := h.stunHeader
  offset := by rw [append_offset, append_offset, h.offset]
  hasMessageIntegrity := h.hasMessageIntegrity
  hasFingerprint := h.hasFingerprint
  length := by rw [length_append, length_append, h.length]
  room := by
    rw [length_append]
    exact h.room
  le_offset := Nat.le_add_right_of_le h.le_offset
  behind := by
    have hroom' : f.offset + padded a ≤ f.buffer.bytes.length := by
      rwa [← h.offset, ← h.length]
    rw [slice_append_slot e hready hvalue hroom h.le_offset,
      slice_append_slot f hready hvalue hroom' h.symm.le_offset, h.behind]
  written hs := by
    rw [take_append e a h.le_offset, take_append f a h.symm.le_offset]
    exact h.written hs

variable [Platform]

theorem Agree.writeLength (h : Agree e f) (n : UInt16) :
    Agree (e.writeLength n) (f.writeLength n) ∧
      (e.writeLength n).buffer.bytes.take 20 = (f.writeLength n).buffer.bytes.take 20 := by
  have hoff := h.le_offset
  have hstun : (e.writeLength n).stunHeader = (f.writeLength n).stunHeader := by
    rw [Encoder.writeLength, Encoder.writeLength, h.stunHeader]
  have he : (e.writeLength n).buffer.bytes.take 20 = _ := headerWritten_writeLength h.room n
  have hf : (f.writeLength n).buffer.bytes.take 20 = _ :=
    headerWritten_writeLength h.symm.room n
  have htake : (e.writeLength n).buffer.bytes.take 20 = (f.writeLength n).buffer.bytes.take 20 := by
    rw [he, hf, hstun]
  refine ⟨⟨hstun, h.offset, h.hasMessageIntegrity, h.hasFingerprint, ?_, ?_, hoff, ?_,
    fun _ => htake⟩, htake⟩
  · rw [length_writeLength, length_writeLength, h.length]
  · rw [length_writeLength]
    exact h.room
  · rw [(extends_writeLength e n).slice_eq (Nat.le_refl _) (by rw [writeLength_offset]; omega),
      (extends_writeLength f n).slice_eq (Nat.le_refl _)
        (by rw [writeLength_offset, ← h.offset]; omega)]
    exact h.behind

theorem Agree.announce (h : Agree e f) (n : Nat) :
    Agree (e.announce n) (f.announce n) ∧
      (e.announce n).buffer.bytes.take 20 = (f.announce n).buffer.bytes.take 20 := by
  rw [Encoder.announce, Encoder.announce, stunSize, stunSize, ← h.offset]
  exact h.writeLength _

theorem agree_new (type : UInt16) (tid : TransactionId) {b c : Bytes} (hlen : b.length = c.length)
    (hroom : 20 ≤ b.length) : Agree (new type tid b) (new type tid c) where
  stunHeader := rfl
  offset := rfl
  hasMessageIntegrity := rfl
  hasFingerprint := rfl
  length := hlen
  room := hroom
  le_offset := Nat.le_refl _
  behind := rfl
  written h := by rcases h with h | h <;> cases h

theorem Agree.computed_eq (h : Agree e f) {T : StunAttrType} (a : MessageIntegrityAttrT T) :
    e.computed a = f.computed a := by
  obtain ⟨hann, hheader⟩ := h.announce (sealSize T)
  have hmessage := hann.take_eq hheader
  rw [announce_offset, announce_offset] at hmessage
  rw [computed, computed, hmessage]

theorem Agree.fingerprint_eq (h : Agree e f) : e.fingerprint = f.fingerprint := by
  obtain ⟨hann, hheader⟩ := h.announce fingerprintSize
  have hmessage := hann.take_eq hheader
  rw [announce_offset, announce_offset] at hmessage
  rw [fingerprint, fingerprint, hmessage]

/-- A seal writes the same header and the same attribute. -/
theorem Agree.announce_append (h : Agree e f) {α : Type} [AttributeSpec α] {a : α} {n : Nat}
    (hready : AttributeSpec.ready a = true) (hvalue : AttributeSpec.valueSize a < 65536)
    (hpad : padded a = n) (hroom : e.offset + n ≤ e.buffer.bytes.length) :
    Agree ((e.announce n).append a) ((f.announce n).append a) ∧
      ((e.announce n).append a).buffer.bytes.take 20 =
        ((f.announce n).append a).buffer.bytes.take 20 := by
  obtain ⟨hann, hheader⟩ := h.announce n
  refine ⟨hann.append hready hvalue ?_, ?_⟩
  · rw [hpad, announce_offset, length_announce]
    exact hroom
  · rw [take_append _ a hann.le_offset, take_append _ a hann.symm.le_offset, hheader]

theorem Agree.sign (h : Agree e f) {kind : IntegrityKind} {digest : Bytes}
    (hsize : digest.length = kind.expectedSize)
    (hroom : e.offset + sealSize kind.type ≤ e.buffer.bytes.length) :
    Agree (e.sign kind.type digest) (f.sign kind.type digest) := by
  obtain ⟨hready, hvalue⟩ := ready_ofHmac hsize
  obtain ⟨happ, hheader⟩ := h.announce_append hready hvalue (padded_of_hmac hsize) hroom
  exact ⟨happ.stunHeader, happ.offset, rfl, happ.hasFingerprint, happ.length, happ.room,
    happ.le_offset, happ.behind, fun _ => hheader⟩

theorem Agree.stamp (h : Agree e f) (hroom : e.offset + fingerprintSize ≤ e.buffer.bytes.length) :
    Agree e.stamp f.stamp := by
  obtain ⟨happ, hheader⟩ := h.announce_append (a := e.fingerprint) rfl e.valueSize_fingerprint_lt
    (padded_fingerprint _) hroom
  rw [Encoder.stamp, Encoder.stamp, ← h.fingerprint_eq]
  exact ⟨happ.stunHeader, happ.offset, happ.hasMessageIntegrity, rfl, happ.length, happ.room,
    happ.le_offset, happ.behind, fun _ => hheader⟩

theorem Agree.of_add (h : Agree e f) {c : AddCall} (hc : c.Short) :
    (e.add c).1 = (f.add c).1 ∧ Agree (e.add c).2 (f.add c).2 := by
  cases c with
  | ordinary a =>
    simp only [add, addAttribute_eq _ a.ready, ← h.offset, ← h.length]
    by_cases hfit : e.offset + padded a.obj ≤ e.buffer.bytes.length ∧
        AttributeSpec.room a.obj ≤ padded a.obj
    · rw [if_pos hfit, if_pos hfit]
      exact ⟨rfl, h.append a.ready (Nat.lt_succ_of_le hc) hfit.1⟩
    · rw [if_neg hfit, if_neg hfit]
      exact ⟨rfl, h⟩
  | integrity kind a =>
    simp only [add, addMessageIntegrity_eq, ← h.offset, ← h.length, ← h.computed_eq a]
    by_cases hfull : e.buffer.bytes.length < e.offset + sealSize kind.type
    · rw [if_pos hfull, if_pos hfull]
      exact ⟨rfl, h⟩
    · rw [if_neg hfull, if_neg hfull]
      by_cases hfail : (e.computed a).1 = false
      · rw [if_pos hfail, if_pos hfail]
        exact ⟨rfl, (h.announce _).1⟩
      · rw [if_neg hfail, if_neg hfail]
        have hsize := (MessageIntegrityAttrT.compute_eq_true (Bool.not_eq_false _ ▸ hfail)).2.1
        exact ⟨rfl, h.sign hsize (Nat.not_lt.1 hfull)⟩
  | fingerprint =>
    simp only [add, addFingerprint_eq, ← h.offset, ← h.length, ← h.hasFingerprint]
    by_cases hfull : e.hasFingerprint = true ∨
        e.buffer.bytes.length < e.offset + fingerprintSize
    · rw [if_pos hfull, if_pos hfull]
      exact ⟨rfl, h⟩
    · rw [if_neg hfull, if_neg hfull]
      exact ⟨rfl, h.stamp (Nat.not_lt.1 (not_or.1 hfull).2)⟩

/-- After `finalize` the headers are written, so the messages are the same bytes. -/
theorem Agree.finalize (h : Agree e f) :
    Agree e.finalize f.finalize ∧
      e.finalize.buffer.bytes.take 20 = f.finalize.buffer.bytes.take 20 := by
  by_cases hs : e.Sealed
  · rw [finalize_of_sealed hs, finalize_of_sealed (h.sealed_iff.1 hs)]
    exact ⟨h, h.written hs⟩
  · rw [finalize_of_not_sealed hs, finalize_of_not_sealed (h.sealed_iff.not.1 hs), stunSize,
      stunSize, ← h.offset]
    exact h.writeLength _

theorem Agree.of_step (h : Agree e f) {call : Call} (hcall : call.Short) :
    (e.step call).1 = (f.step call).1 ∧ Agree (e.step call).2 (f.step call).2 := by
  cases call with
  | add c => exact h.of_add hcall
  | finalize => exact ⟨rfl, h.finalize.1⟩

end Agree

/-- **The finished message does not depend on what was in the buffer**: on two buffers of one size,
the same calls return the same and leave the same message, and behind it each buffer is as it
was. -/
theorem finished_independent [Platform] (type : UInt16) (tid : TransactionId) {b c : Bytes}
    (hlen : b.length = c.length) (hroom : 20 ≤ b.length) {calls : List Call}
    (hcalls : ∀ call ∈ calls, call.Short) {results results' : List AddResult} {e f : Encoder}
    (hrun : run step (new type tid b) (calls ++ [.finalize]) = (results, e))
    (hrun' : run step (new type tid c) (calls ++ [.finalize]) = (results', f)) :
    results = results' ∧ e.totalSize = f.totalSize ∧
      e.buffer.bytes.take e.totalSize = f.buffer.bytes.take f.totalSize ∧
      e.buffer.bytes.drop e.totalSize = b.drop e.totalSize ∧
      f.buffer.bytes.drop f.totalSize = c.drop f.totalSize := by
  have hall : ∀ call ∈ calls ++ [.finalize], call.Short := by
    intro call hmem
    rcases List.mem_append.1 hmem with hmem | hmem
    · exact hcalls call hmem
    · rw [List.mem_singleton.1 hmem]
      trivial
  have huntouched := untouched_run type tid b hall
  have huntouched' := untouched_run type tid c hall
  obtain ⟨houts, hagree⟩ := run_related step (fun _ _ call hmem h => h.of_step (hcalls call hmem))
    (agree_new type tid hlen hroom)
  rw [hrun] at huntouched
  rw [hrun'] at huntouched'
  rw [run_append, run_singleton] at hrun hrun'
  obtain ⟨rfl, rfl⟩ := Prod.mk.inj hrun
  obtain ⟨rfl, rfl⟩ := Prod.mk.inj hrun'
  obtain ⟨hlast, hheader⟩ := hagree.finalize
  exact ⟨by rw [houts]; rfl, hlast.offset, hlast.take_eq hheader, huntouched, huntouched'⟩

/-! One message on a buffer of zeros and on a buffer of ones. -/

local instance contentsHost : Platform := .ofDigest []

def stampedCalls : List Call := [.add (.ordinary ⟨.priority, rfl, ⟨7⟩⟩), .add .fingerprint]

def stampedOn (buffer : Bytes) : List AddResult × Encoder :=
  run step (new 0x0001 (ByteArrayN.zero 12) buffer) (stampedCalls ++ [.finalize])

theorem finished_independent_stamped :
    (stampedOn (List.replicate 40 0)).2.buffer.bytes.take
        (stampedOn (List.replicate 40 0)).2.totalSize =
      (stampedOn (List.replicate 40 0xFF)).2.buffer.bytes.take
        (stampedOn (List.replicate 40 0xFF)).2.totalSize := by
  have hshort : ∀ call ∈ stampedCalls, call.Short := by
    intro call hcall
    simp only [stampedCalls, List.mem_cons, List.not_mem_nil, or_false] at hcall
    rcases hcall with rfl | rfl
    · exact (by decide : (4 : Nat) ≤ 65535)
    · trivial
  exact (finished_independent 0x0001 (ByteArrayN.zero 12) (b := List.replicate 40 0)
    (c := List.replicate 40 0xFF) (by decide) (by decide) hshort rfl rfl).2.2.1

end Encoder

end Stunxx
