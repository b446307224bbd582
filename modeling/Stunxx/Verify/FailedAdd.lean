import Stunxx.Verify.EncoderInv

/-!
# A failed add and what comes after it

An add that is refused leaves no trace. A MESSAGE-INTEGRITY that found room but no digest has
already rewritten the length in the header. As long as nothing sealed the message, every later seal
and `finalize` writes the length again, so runs with and without the failed call stay related by
`SameButLength` and end alike. Once the message is sealed nothing repairs the header, and the
failed call is visible exactly when it changed the length.
-/

namespace Stunxx

open Overlay Machine

namespace Encoder

section Failure

variable [Platform]

/-! ## A header is written over the one before -/

section Rewrite

variable {e : Encoder} (n : UInt16)

theorem writeLength_writeLength (h : 20 ≤ e.buffer.bytes.length) (m : UInt16) :
    (e.writeLength n).writeLength m = e.writeLength m := by
  have hlen : ∀ g : StunHeader, g.bytes.length = 20 := StunHeader.length_bytes
  have hmem : (e.buffer.store 0 (e.writeLength n).stunHeader.bytes).store 0
      (e.writeLength m).stunHeader.bytes = e.buffer.store 0 (e.writeLength m).stunHeader.bytes :=
    Memory.store_store (by rw [hlen, hlen]) (by rw [hlen]; omega)
  simp only [writeLength] at hmem ⊢
  rw [hmem]

/-- A header written before an attribute is appended could as well be written after. -/
theorem append_writeLength {α : Type} [AttributeSpec α] (h : 20 ≤ e.buffer.bytes.length)
    (hoff : 20 ≤ e.offset) (a : α) : (e.writeLength n).append a = (e.append a).writeLength n := by
  have hlen : (e.writeLength n).stunHeader.bytes.length = 20 := StunHeader.length_bytes _
  have hmem := Memory.store_storeAll (memcpy 0 (writeHeader (StunAttribute.type α).code
    (UInt16.ofNat (StunAttribute.length a))) :: AttributeSpec.body a)
    (hlen.trans_le hoff) (hlen.trans_le h)
  simp only [writeLength, append] at hmem ⊢
  rw [hmem]

theorem announce_writeLength (h : 20 ≤ e.buffer.bytes.length) (k : Nat) :
    (e.writeLength n).announce k = e.announce k :=
  writeLength_writeLength n h _

theorem add_integrity_writeLength (h : 20 ≤ e.buffer.bytes.length) (kind : IntegrityKind)
    (a : kind.Obj) (hroom : e.offset + sealSize kind.type ≤ e.buffer.bytes.length) :
    (e.writeLength n).add (.integrity kind a) = e.add (.integrity kind a) := by
  have hann := announce_writeLength n h (sealSize kind.type)
  have hcomp : (e.writeLength n).computed a = e.computed a := by
    simp only [computed, hann, writeLength_offset]
  have hsign : ∀ digest, (e.writeLength n).sign kind.type digest = e.sign kind.type digest := by
    intro digest
    simp only [sign, hann]
  have hfit : ¬e.buffer.bytes.length < e.offset + sealSize kind.type := Nat.not_lt.2 hroom
  simp only [add, addMessageIntegrity_eq, length_writeLength, writeLength_offset, hcomp, hsign,
    hann, if_neg hfit]

theorem add_fingerprint_writeLength (h : 20 ≤ e.buffer.bytes.length)
    (hroom : e.offset + fingerprintSize ≤ e.buffer.bytes.length)
    (hfirst : e.hasFingerprint = false) :
    (e.writeLength n).add .fingerprint = e.add .fingerprint := by
  have hann := announce_writeLength n h fingerprintSize
  have hstamp : (e.writeLength n).stamp = e.stamp := by
    simp only [stamp, fingerprint, hann, writeLength_offset]
  have hcond : ¬(e.hasFingerprint = true ∨ e.buffer.bytes.length < e.offset + fingerprintSize) := by
    rw [hfirst]
    simpa using hroom
  have hcond' : ¬((e.writeLength n).hasFingerprint = true ∨
      (e.writeLength n).buffer.bytes.length < (e.writeLength n).offset + fingerprintSize) := by
    rw [length_writeLength]
    exact hcond
  simp only [add, addFingerprint_eq, if_neg hcond, if_neg hcond', hstamp]

end Rewrite

/-! ## Runs that differ in a length that is still to be written -/

/-- The encoders are the same, or differ in a length that the next seal or `finalize` replaces. -/
inductive SameButLength : Encoder → Encoder → Prop
  | same (e : Encoder) : SameButLength e e
  | stale {e : Encoder} {n : UInt16} (hsize : 20 ≤ e.buffer.bytes.length) (hoff : 20 ≤ e.offset)
      (hopen : ¬e.Sealed) : SameButLength (e.writeLength n) e

theorem SameButLength.finalize_eq {e f : Encoder} (h : SameButLength e f) :
    e.finalize = f.finalize := by
  cases h with
  | same => rfl
  | stale hsize hoff hopen =>
    rw [finalize_of_not_sealed hopen, finalize_of_not_sealed (e := f.writeLength _) hopen]
    exact writeLength_writeLength _ hsize _

theorem SameButLength.of_add {e f : Encoder} (h : SameButLength e f) (c : AddCall) :
    (e.add c).1 = (f.add c).1 ∧ SameButLength (e.add c).2 (f.add c).2 := by
  cases h with
  | same => exact ⟨rfl, .same _⟩
  | @stale _ n hsize hoff hopen =>
    cases c with
    | ordinary a =>
      simp only [add, addAttribute_eq _ a.ready, length_writeLength, writeLength_offset]
      split
      · rw [append_writeLength n hsize hoff]
        refine ⟨rfl, .stale ?_ ?_ hopen⟩
        · rwa [length_append]
        · exact Nat.le_add_right_of_le hoff
      · exact ⟨rfl, .stale hsize hoff hopen⟩
    | integrity kind a =>
      by_cases hroom : f.offset + sealSize kind.type ≤ f.buffer.bytes.length
      · rw [add_integrity_writeLength n hsize kind a hroom]
        exact ⟨rfl, .same _⟩
      · have hfull : f.buffer.bytes.length < f.offset + sealSize kind.type := by omega
        simp only [add, addMessageIntegrity_eq, length_writeLength, writeLength_offset,
          if_pos hfull]
        exact ⟨trivial, .stale hsize hoff hopen⟩
    | fingerprint =>
      have hfirst : f.hasFingerprint = false := by
        simpa using (not_or.1 hopen).2
      by_cases hroom : f.offset + fingerprintSize ≤ f.buffer.bytes.length
      · rw [add_fingerprint_writeLength n hsize hroom hfirst]
        exact ⟨rfl, .same _⟩
      · have hfull : f.buffer.bytes.length < f.offset + fingerprintSize := by omega
        simp only [add, addFingerprint_eq, length_writeLength, writeLength_offset, hfull,
          or_true, if_true]
        exact ⟨trivial, .stale hsize hoff hopen⟩

theorem SameButLength.of_step {e f : Encoder} (h : SameButLength e f) (call : Call) :
    (e.step call).1 = (f.step call).1 ∧ SameButLength (e.step call).2 (f.step call).2 := by
  cases call with
  | add c => exact h.of_add c
  | finalize =>
    refine ⟨rfl, ?_⟩
    have heq : (e.step .finalize).2 = (f.step .finalize).2 := h.finalize_eq
    rw [heq]
    exact .same _

/-- Such runs end alike once they are finalized. -/
theorem SameButLength.run_eq {e f : Encoder} (h : SameButLength e f) (k : List Call) :
    run step e (k ++ [.finalize]) = run step f (k ++ [.finalize]) := by
  obtain ⟨houts, hlast⟩ := run_related step (fun _ _ call _ h => h.of_step call) h
  rw [run_append, run_append, houts]
  exact Prod.ext rfl hlast.finalize_eq

/-! ## The failed call -/

/-- Two runs a caller cannot tell apart: what the calls returned, the size and the message. -/
structure SameRun (x y : List AddResult × Encoder) : Prop where
  results : x.1 = y.1
  totalSize : x.2.totalSize = y.2.totalSize
  message : x.2.buffer.bytes.take x.2.totalSize = y.2.buffer.bytes.take y.2.totalSize

/-- When the failure of a call leaves nothing behind: only a MESSAGE-INTEGRITY that finds room
rewrites the length, and then either a later write replaces it or it was there before. -/
def Harmless (e : Encoder) : AddCall → Prop
  | .integrity kind _ =>
    e.buffer.bytes.length < e.offset + sealSize kind.type ∨ ¬e.Sealed ∨
      e.stunHeader.msgLength = hostToBe16 (UInt16.ofNat (e.stunSize.toNat + sealSize kind.type))
  | _ => True

/-- Writing the header that is already there changes nothing. -/
theorem writeLength_eq_self {e : Encoder} {n : UInt16} (hsize : 20 ≤ e.buffer.bytes.length)
    (hwritten : e.HeaderWritten) (hlength : e.stunHeader.msgLength = hostToBe16 n) :
    e.writeLength n = e := by
  have hlen : ∀ g : StunHeader, g.bytes.length = 20 := StunHeader.length_bytes
  have hheader : { e.stunHeader with msgLength := hostToBe16 n } = e.stunHeader := by
    rw [← hlength]
  have hmem : e.buffer.store 0 e.stunHeader.bytes = e.buffer := by
    apply Memory.ext
    · exact overlay_of_slice_eq (by rw [hlen]; exact hwritten)
    · exact Memory.store_stray (by rw [hlen]; omega)
  simp only [writeLength, hheader, hmem]

/-- On a sealed message, an announcement that changes the length changes the message. -/
theorem msgLength_of_take_announce {type : UInt16} {tid : TransactionId} {size : Nat} {e : Encoder}
    (h : Inv type tid size e) (hsealed : e.Sealed) {n : Nat}
    (htake : (e.announce n).buffer.bytes.take e.offset = e.buffer.bytes.take e.offset) :
    e.stunHeader.msgLength = hostToBe16 (UInt16.ofNat (e.stunSize.toNat + n)) := by
  obtain ⟨length, hlength⟩ := h.header
  have hoff := h.le_offset
  have hnew := headerWritten_writeLength (h.header_room (h.le_size hsealed))
    (UInt16.ofNat (e.stunSize.toNat + n))
  have hbytes := congrArg (List.take 20) htake
  rw [List.take_take, List.take_take, Nat.min_eq_left hoff, h.written hsealed] at hbytes
  have hheader : (e.announce n).stunHeader =
      netHeader type (UInt16.ofNat (e.stunSize.toNat + n)) tid := by
    rw [announce, writeLength, hlength]
    rfl
  have hwire := hnew.symm.trans hbytes
  rw [← announce, hheader, hlength, netHeader_bytes, netHeader_bytes] at hwire
  have hsame := congrArg StunHeader.msgLength (StunHeader.wire_inj hwire)
  rw [hlength]
  exact congrArg hostToBe16 hsame.symm

/-- An announced add that is harmless leaves nothing that a finished run shows. -/
theorem run_announce_eq {type : UInt16} {tid : TransactionId} {size : Nat} {e : Encoder}
    (h : Inv type tid size e) (hsize : 20 ≤ size) {kind : IntegrityKind} {a : kind.Obj}
    (hroom : e.offset + sealSize kind.type ≤ e.buffer.bytes.length)
    (hharmless : Harmless e (.integrity kind a)) (k : List Call) :
    run step (e.announce (sealSize kind.type)) (k ++ [.finalize]) =
      run step e (k ++ [.finalize]) := by
  have hbuf := h.header_room hsize
  by_cases hsealed : e.Sealed
  · rcases hharmless with hfull | hopen | hlength
    · omega
    · exact absurd hsealed hopen
    · rw [announce, writeLength_eq_self hbuf (h.written hsealed) hlength]
  · exact (SameButLength.stale hbuf h.le_offset hsealed).run_eq k

theorem Outcome.sameRun_iff {type : UInt16} {tid : TransactionId} {size : Nat} {e f : Encoder}
    {c : AddCall} {r : AddResult} (h : Inv type tid size e) (hsize : 20 ≤ size)
    (hout : Outcome e c r f) (hfail : r.ok = false) :
    (∀ k : List Call, SameRun (run step f (k ++ [.finalize])) (run step e (k ++ [.finalize]))) ↔
      Harmless e c := by
  cases hout with
  | refused hfull =>
    refine ⟨fun _ => ?_, fun _ k => ⟨rfl, rfl, rfl⟩⟩
    cases c with
    | integrity kind a => exact .inl (hfull kind a rfl)
    | ordinary => trivial
    | fingerprint => trivial
  | @announced kind a hroom =>
    constructor
    · intro hsame
      by_cases hsealed : e.Sealed
      · have hmessage := (hsame []).message
        have hold : e.finalize = e := finalize_of_sealed hsealed
        have hnew : (e.announce (sealSize kind.type)).finalize = e.announce (sealSize kind.type) :=
          finalize_of_sealed hsealed
        simp only [List.nil_append, run_cons, run_nil, step, hold, hnew] at hmessage
        exact .inr (.inr (msgLength_of_take_announce h hsealed hmessage))
      · exact .inr (.inl hsealed)
    · intro hharmless k
      rw [run_announce_eq h hsize hroom hharmless k]
      exact ⟨rfl, rfl, rfl⟩
  | ordinary => cases hfail
  | integrity => cases hfail
  | fingerprint => cases hfail

/-- **A failed add is a no-op** for every continuation that is finalized, exactly when the message
is not sealed yet, or the call did not get as far as rewriting the length, or did not change it. -/
theorem failed_add_iff (type : UInt16) (tid : TransactionId) (buffer : Bytes)
    (hbuffer : 20 ≤ buffer.length) (pre : List AddCall) (c : AddCall)
    (hfail : ((run add (new type tid buffer) pre).2.add c).1.ok = false) :
    let e := (run add (new type tid buffer) pre).2
    (∀ k : List Call,
      SameRun (run step (e.add c).2 (k ++ [.finalize])) (run step e (k ++ [.finalize]))) ↔
      Harmless e c := by
  have hinv := (inv_new type tid buffer).run_add pre
  exact (add_outcome _ c).sameRun_iff hinv hbuffer hfail

end Failure

/-- The host that signs an empty message with the key `key`. -/
@[reducible] def bareHost : Platform :=
  .ofDigest [0x2A, 0x27, 0x77, 0xE2, 0x24, 0xF9, 0x81, 0x91, 0x37, 0x42, 0x31, 0x72, 0x4C, 0x29,
    0x03, 0x67, 0x8A, 0xB7, 0x84, 0x82]

/-- Behind a MESSAGE-INTEGRITY and an add with an empty key, which changed the length, a second such
add changes nothing. -/
theorem failed_add_iff_again :
    letI := bareHost
    let e := (run add (new 0x0001 (ByteArrayN.zero 12) (List.replicate 128 0))
      [.integrity .sha1 (.ofKey [0x6B, 0x65, 0x79]), .integrity .sha256 (.ofKey [])]).2
    let c : AddCall := .integrity .sha256 (.ofKey [])
    e.Sealed ∧ ∀ k : List Call,
      SameRun (run step (e.add c).2 (k ++ [.finalize])) (run step e (k ++ [.finalize])) := by
  have hsize : 20 ≤ (List.replicate 128 (0 : UInt8)).length := by
    rw [List.length_replicate]
    decide
  have hsame := @failed_add_iff bareHost 0x0001 (ByteArrayN.zero 12) (List.replicate 128 0) hsize
    [.integrity .sha1 (.ofKey [0x6B, 0x65, 0x79]), .integrity .sha256 (.ofKey [])]
    (.integrity .sha256 (.ofKey [])) (by decide +kernel)
  exact ⟨.inl (by decide +kernel), hsame.2 (.inr (.inr (by decide +kernel)))⟩

/-- After a MESSAGE-INTEGRITY, the failed add of a second one with an empty key stays visible in
the header. -/
theorem failed_add_visible :
    letI := bareHost
    let e := (run add (new 0x0001 (ByteArrayN.zero 12) (List.replicate 128 0))
      [.integrity .sha1 (.ofKey [0x6B, 0x65, 0x79])]).2
    let c : AddCall := .integrity .sha256 (.ofKey [])
    (e.add c).1.ok = false ∧ ¬∀ k : List Call,
      SameRun (run step (e.add c).2 (k ++ [.finalize])) (run step e (k ++ [.finalize])) := by
  refine ⟨by decide +kernel, ?_⟩
  intro hsame
  have hmessage := (hsame []).message
  revert hmessage
  decide +kernel

end Encoder

end Stunxx
