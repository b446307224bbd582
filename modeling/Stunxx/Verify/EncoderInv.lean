import Stunxx.Lib.Machine
import Stunxx.Verify.EncoderStep

/-!
# Invariants of an encoder

`Inv type tid size` holds of every encoder of a message of that type and transaction ID on a
buffer of `size` bytes, whatever was called. `Extends e e'` says what calls leave alone: behind the
header, the bytes of the message so far. Once the message is sealed, by a MESSAGE-INTEGRITY or the
FINGERPRINT, the header in the buffer is the encoder's own and `finalize` does nothing.
-/

namespace Stunxx

open Overlay Machine

/-- The header of a message, in network byte order. -/
def netHeader [Platform] (type length : UInt16) (tid : TransactionId) : StunHeader :=
  ⟨hostToBe16 type, hostToBe16 length, hostToBe32 magicCookie, tid⟩

theorem netHeader_bytes [Platform] (type length : UInt16) (tid : TransactionId) :
    (netHeader type length tid).bytes = StunHeader.wire ⟨type, length, magicCookie, tid⟩ :=
  StunHeader.bytes_hostToBe type length tid

namespace Encoder

/-- A MESSAGE-INTEGRITY or the FINGERPRINT was added. -/
def Sealed (e : Encoder) : Prop := e.hasMessageIntegrity = true ∨ e.hasFingerprint = true

/-- `e'` holds the message of `e` and perhaps more, under a header of its own. -/
structure Extends (e e' : Encoder) : Prop where
  offset_le : e.offset ≤ e'.offset
  slice_eq : ∀ {i n : Nat}, 20 ≤ i → i + n ≤ e.offset →
    slice e'.buffer.bytes i n = slice e.buffer.bytes i n
  sealed_of : e.Sealed → e'.Sealed

theorem Extends.refl (e : Encoder) : Extends e e := ⟨Nat.le_refl _, fun _ _ => rfl, id⟩

theorem Extends.trans {e f g : Encoder} (h : Extends e f) (h' : Extends f g) : Extends e g where
  offset_le := Nat.le_trans h.offset_le h'.offset_le
  slice_eq hlo hhi := by
    have hle := h.offset_le
    rw [h'.slice_eq hlo (by omega), h.slice_eq hlo hhi]
  sealed_of hs := h'.sealed_of (h.sealed_of hs)

theorem extends_append {α : Type} [AttributeSpec α] (e : Encoder) (a : α) :
    Extends e (e.append a) where
  offset_le := Nat.le_add_right _ _
  slice_eq _ hhi := slice_congr_take (take_append e a (Nat.le_refl _)) hhi
  sealed_of := id

variable [Platform]

theorem extends_writeLength (e : Encoder) (n : UInt16) : Extends e (e.writeLength n) where
  offset_le := Nat.le_refl _
  slice_eq hlo _ := slice_overlay_of_disjoint _ (.inr (by rw [StunHeader.length_bytes]; exact hlo))
  sealed_of := id

theorem extends_sign (e : Encoder) (T : StunAttrType) (digest : Bytes) :
    Extends e (e.sign T digest) := by
  have happ := (extends_writeLength e _).trans
    (extends_append (e.announce (sealSize T)) (MessageIntegrityAttrT.ofHmac (T := T) digest))
  exact ⟨happ.offset_le, happ.slice_eq, fun _ => .inl rfl⟩

theorem extends_stamp (e : Encoder) : Extends e e.stamp := by
  have happ := (extends_writeLength e _).trans
    (extends_append (e.announce fingerprintSize) e.fingerprint)
  exact ⟨happ.offset_le, happ.slice_eq, fun _ => .inr rfl⟩

/-- No add touches the message it extends. -/
theorem Outcome.extends {e e' : Encoder} {c : AddCall} {r : AddResult} (h : Outcome e c r e') :
    Extends e e' := by
  cases h with
  | refused => exact .refl e
  | announced => exact extends_writeLength e _
  | ordinary => exact extends_append e _
  | integrity => exact extends_sign e _ _
  | fingerprint => exact extends_stamp e

theorem finalize_of_sealed {e : Encoder} (h : e.Sealed) : e.finalize = e := by
  rw [finalize, if_neg]
  rcases h with h | h <;> rw [h] <;> simp

theorem finalize_of_not_sealed {e : Encoder} (h : ¬e.Sealed) :
    e.finalize = e.writeLength e.stunSize := by
  obtain ⟨hmi, hfp⟩ := not_or.1 h
  rw [finalize, if_pos (by simp [hmi, hfp])]

@[simp] theorem finalize_totalSize (e : Encoder) : e.finalize.totalSize = e.offset := by
  by_cases h : e.Sealed
  · rw [finalize_of_sealed h, totalSize]
  · rw [finalize_of_not_sealed h, totalSize, writeLength_offset]

theorem extends_finalize (e : Encoder) : Extends e e.finalize := by
  by_cases h : e.Sealed
  · rw [finalize_of_sealed h]
    exact .refl e
  · rw [finalize_of_not_sealed h]
    exact extends_writeLength e _

/-- Whatever is called, the message so far stays. -/
theorem extends_run (e : Encoder) (calls : List Call) : Extends e (run step e calls).2 := by
  refine run_invariant step ?_ (.refl e)
  intro f call _ h
  cases call with
  | add c => exact h.trans (add_outcome f c).extends
  | finalize => exact h.trans (extends_finalize f)

/-! ## The invariant -/

/-- The encoder's header lies at the front of the buffer. -/
def HeaderWritten (e : Encoder) : Prop := e.buffer.bytes.take 20 = e.stunHeader.bytes

/-- What holds of the encoder of a message on a buffer of `size` bytes, whatever was called. -/
structure Inv (type : UInt16) (tid : TransactionId) (size : Nat) (e : Encoder) : Prop where
  length_eq : e.buffer.bytes.length = size
  le_offset : 20 ≤ e.offset
  offset_le : e.offset ≤ max 20 size
  header : ∃ length, e.stunHeader = netHeader type length tid
  written : e.Sealed → e.HeaderWritten

theorem headerWritten_writeLength {e : Encoder} (h : 20 ≤ e.buffer.bytes.length) (n : UInt16) :
    (e.writeLength n).HeaderWritten := by
  have hlen := StunHeader.length_bytes (e.writeLength n).stunHeader
  have hfit : 0 + (e.writeLength n).stunHeader.bytes.length ≤ e.buffer.bytes.length := by
    rw [hlen, Nat.zero_add]
    exact h
  have hself := slice_overlay_self hfit
  rw [hlen] at hself
  exact hself

theorem headerWritten_append {α : Type} [AttributeSpec α] {e : Encoder} (a : α)
    (hoff : 20 ≤ e.offset) (h : e.HeaderWritten) : (e.append a).HeaderWritten :=
  (take_append e a hoff).trans h

section Inv

variable {type : UInt16} {tid : TransactionId} {size : Nat} {e : Encoder}

theorem inv_new (type : UInt16) (tid : TransactionId) (buffer : Bytes) :
    Inv type tid buffer.length (new type tid buffer) where
  length_eq := rfl
  le_offset := Nat.le_refl _
  offset_le := Nat.le_max_left _ _
  header := ⟨0, by rw [netHeader, hostToBe16_zero]; rfl⟩
  written h := by rcases h with h | h <;> cases h

theorem Inv.header_room (h : Inv type tid size e) (hsize : 20 ≤ size) :
    20 ≤ e.buffer.bytes.length := by rwa [h.length_eq]

theorem Inv.writeLength (h : Inv type tid size e) (n : UInt16) (hs : e.Sealed → 20 ≤ size) :
    Inv type tid size (e.writeLength n) where
  length_eq := by rw [length_writeLength, h.length_eq]
  le_offset := h.le_offset
  offset_le := h.offset_le
  header := by
    obtain ⟨m, hm⟩ := h.header
    exact ⟨n, by rw [Encoder.writeLength, hm]; rfl⟩
  written hsealed := headerWritten_writeLength (h.header_room (hs hsealed)) n

theorem Inv.append {α : Type} [AttributeSpec α] (h : Inv type tid size e) (a : α)
    (hroom : e.offset + padded a ≤ size) : Inv type tid size (e.append a) where
  length_eq := by rw [length_append, h.length_eq]
  le_offset := Nat.le_add_right_of_le h.le_offset
  offset_le := Nat.le_trans hroom (Nat.le_max_right _ _)
  header := h.header
  written hsealed := headerWritten_append a h.le_offset (h.written hsealed)

/-- A sealed message has room for its header. -/
theorem Inv.le_size (h : Inv type tid size e) (hs : e.Sealed) : 20 ≤ size := by
  have hlen := congrArg List.length (h.written hs)
  rw [List.length_take, StunHeader.length_bytes, h.length_eq, stunHeaderSize] at hlen
  omega

/-- An attribute appended under a new header. -/
theorem Inv.announce_append {α : Type} [AttributeSpec α] (h : Inv type tid size e) {n : Nat} (a : α)
    (hpad : padded a = n) (hroom : e.offset + n ≤ size) :
    Inv type tid size ((e.announce n).append a) ∧ ((e.announce n).append a).HeaderWritten := by
  have hoff := h.le_offset
  have hsize := h.header_room (by omega)
  have hann := h.writeLength (UInt16.ofNat (e.stunSize.toNat + n)) fun _ => by omega
  exact ⟨hann.append a (by rw [hpad]; exact hroom),
    headerWritten_append a hoff (headerWritten_writeLength hsize _)⟩

theorem Inv.sign (h : Inv type tid size e) {T : StunAttrType} {digest : Bytes}
    (hsize : digest.length = MessageIntegrityAttrT.expectedSize T)
    (hroom : e.offset + sealSize T ≤ size) :
    Inv type tid size (e.sign T digest) ∧ (e.sign T digest).HeaderWritten := by
  obtain ⟨hinv, hwritten⟩ := h.announce_append (MessageIntegrityAttrT.ofHmac (T := T) digest)
    (padded_of_hmac hsize) hroom
  exact ⟨⟨hinv.length_eq, hinv.le_offset, hinv.offset_le, hinv.header, fun _ => hwritten⟩, hwritten⟩

theorem Inv.stamp (h : Inv type tid size e) (hroom : e.offset + fingerprintSize ≤ size) :
    Inv type tid size e.stamp ∧ e.stamp.HeaderWritten := by
  obtain ⟨hinv, hwritten⟩ := h.announce_append e.fingerprint (padded_fingerprint _) hroom
  exact ⟨⟨hinv.length_eq, hinv.le_offset, hinv.offset_le, hinv.header, fun _ => hwritten⟩, hwritten⟩

theorem Inv.outcome {e' : Encoder} {c : AddCall} {r : AddResult} (h : Inv type tid size e)
    (hout : Outcome e c r e') : Inv type tid size e' := by
  cases hout with
  | refused => exact h
  | announced => exact h.writeLength _ h.le_size
  | ordinary hroom => exact h.append _ (by rwa [← h.length_eq])
  | integrity hroom _ hsize => exact (h.sign hsize (by rwa [← h.length_eq])).1
  | fingerprint hroom => exact (h.stamp (by rwa [← h.length_eq])).1

theorem Inv.finalize (h : Inv type tid size e) : Inv type tid size e.finalize := by
  by_cases hs : e.Sealed
  · rw [finalize_of_sealed hs]
    exact h
  · rw [finalize_of_not_sealed hs]
    exact h.writeLength _ fun hs' => absurd hs' hs

/-- Every encoder a run of calls reaches satisfies the invariant. -/
theorem Inv.run (h : Inv type tid size e) (calls : List Call) :
    Inv type tid size (run step e calls).2 := by
  refine run_invariant step ?_ h
  intro f call _ h
  cases call with
  | add c => exact h.outcome (add_outcome f c)
  | finalize => exact h.finalize

theorem Inv.run_add (h : Inv type tid size e) (calls : List AddCall) :
    Inv type tid size (Machine.run add e calls).2 :=
  run_invariant add (fun f c _ hf => hf.outcome (add_outcome f c)) h

end Inv

end Encoder

end Stunxx
