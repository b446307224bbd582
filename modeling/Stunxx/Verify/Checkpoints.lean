import Stunxx.Verify.FailedAdd
import Stunxx.Verify.Reading

/-!
# Finishing a message early

`finalize` may be called at any time, to look at the message so far or to send it, and adds may go
on behind it. It only writes the length, which every seal and the last `finalize` write again, so
the calls of `finalize` in between leave no trace (`finalize_elided`). What was finished early is
the beginning of what is finished later: the attributes behind the header stay, and of the header
only the length changes (`message_extends`).
-/

namespace Stunxx

open Overlay Machine

def Call.isAdd : Call → Bool
  | .add _ => true
  | .finalize => false

namespace Encoder

section Checkpoints

variable [Platform] {type : UInt16} {tid : TransactionId} {size : Nat} {e f : Encoder}

/-- A `finalize` in a run that another run does not make. -/
theorem SameButLength.finalize_left (h : SameButLength e f) (hinv : Inv type tid size f)
    (hsize : 20 ≤ size) : SameButLength e.finalize f := by
  rw [h.finalize_eq]
  by_cases hsealed : f.Sealed
  · rw [finalize_of_sealed hsealed]
    exact .same f
  · rw [finalize_of_not_sealed hsealed]
    exact .stale (hinv.header_room hsize) hinv.le_offset hsealed

/-- **Early calls of `finalize` leave no trace**: without them the adds return the same, and the
last `finalize` leaves the same encoder, whatever was added and whether it failed. -/
theorem finalize_elided (type : UInt16) (tid : TransactionId) {buffer : Bytes}
    (hsize : 20 ≤ buffer.length) (calls : List Call) :
    (history step (new type tid buffer) calls).filter (fun x => x.1.isAdd) =
        history step (new type tid buffer) (calls.filter Call.isAdd) ∧
      (run step (new type tid buffer) calls).2.finalize =
        (run step (new type tid buffer) (calls.filter Call.isAdd)).2.finalize := by
  have hrun := run_eliding step (R := fun e f => SameButLength e f ∧ Inv type tid buffer.length f)
    Call.isAdd ?_ ?_ ⟨.same (new type tid buffer), inv_new type tid buffer⟩ calls
  · exact ⟨hrun.1, hrun.2.1.finalize_eq⟩
  · rintro e f call ⟨hsame, hinv⟩ -
    obtain ⟨hout, hnext⟩ := hsame.of_step call
    exact ⟨hout, hnext, hinv.run [call]⟩
  · rintro e f call ⟨hsame, hinv⟩ hcall
    cases call with
    | add c => cases hcall
    | finalize => exact ⟨hsame.finalize_left hinv hsize, hinv⟩

/-- The message is its header and the bytes of its attributes, in the buffer. -/
theorem Inv.message_eq (h : Inv type tid size e) (hsize : 20 ≤ size) :
    ∃ length, e.message = StunHeader.wire ⟨type, length, magicCookie, tid⟩ ++
      slice e.buffer.bytes 20 (e.offset - 20) := by
  have hoff := h.le_offset
  obtain ⟨length, htake⟩ := h.finalize.take_eq (h.headerWritten_finalize hsize) hoff
  refine ⟨length, ?_⟩
  rw [message, finalize_totalSize, htake,
    (extends_finalize e).slice_eq (Nat.le_refl _) (by omega)]

/-- **A message finished early is the beginning of the later one**: in any run, the attribute bytes
are only added to, and the header keeps its type, cookie and transaction ID. -/
theorem message_extends (type : UInt16) (tid : TransactionId) {buffer : Bytes}
    (hsize : 20 ≤ buffer.length) (pre post : List Call) :
    ∃ (length length' : UInt16) (attrs more : Bytes),
      (run step (new type tid buffer) pre).2.message =
        StunHeader.wire ⟨type, length, magicCookie, tid⟩ ++ attrs ∧
      (run step (new type tid buffer) (pre ++ post)).2.message =
        StunHeader.wire ⟨type, length', magicCookie, tid⟩ ++ (attrs ++ more) := by
  rw [run_append]
  have hinv := (inv_new type tid buffer).run pre
  generalize (run step (new type tid buffer) pre).2 = e at hinv ⊢
  have hlater := hinv.run post
  have hext := extends_run e post
  have hoff := hinv.le_offset
  have hle := hext.offset_le
  obtain ⟨length, hmessage⟩ := hinv.message_eq hsize
  obtain ⟨length', hmessage'⟩ := hlater.message_eq hsize
  refine ⟨length, length', slice e.buffer.bytes 20 (e.offset - 20),
    slice (run step e post).2.buffer.bytes e.offset ((run step e post).2.offset - e.offset),
    hmessage, ?_⟩
  have hsplit : (run step e post).2.offset - 20 =
      (e.offset - 20) + ((run step e post).2.offset - e.offset) := by omega
  rw [hmessage', hsplit, slice_add, hext.slice_eq (Nat.le_refl _) (by omega),
    Nat.add_sub_cancel' hoff]

end Checkpoints

/-! A PRIORITY, a look at the message, then a NONCE that does not fit and a FINGERPRINT. -/

local instance checkpointHost : Platform := .ofDigest []

theorem finalize_elided_priority :
    let buffer : Bytes := List.replicate 40 0
    let priority : Call := .add (.ordinary ⟨.priority, rfl, ⟨7⟩⟩)
    let nonce : Call := .add (.ordinary ⟨.nonce, rfl, ⟨List.replicate 20 0x61⟩⟩)
    let fingerprint : Call := .add .fingerprint
    let e := new 0x0001 (ByteArrayN.zero 12) buffer
    (run step e [.finalize, priority, .finalize, nonce, fingerprint]).2.finalize =
      (run step e [priority, nonce, fingerprint]).2.finalize := by
  intro buffer priority nonce fingerprint e
  exact (finalize_elided 0x0001 (ByteArrayN.zero 12) (by decide) _).2

theorem message_extends_priority :
    let buffer : Bytes := List.replicate 40 0
    let priority : Call := .add (.ordinary ⟨.priority, rfl, ⟨7⟩⟩)
    let e := new 0x0001 (ByteArrayN.zero 12) buffer
    ∃ (length length' : UInt16) (attrs more : Bytes),
      (run step e [priority]).2.message =
        StunHeader.wire ⟨0x0001, length, magicCookie, ByteArrayN.zero 12⟩ ++ attrs ∧
      (run step e ([priority] ++ [.add .fingerprint])).2.message =
        StunHeader.wire ⟨0x0001, length', magicCookie, ByteArrayN.zero 12⟩ ++ (attrs ++ more) := by
  intro buffer priority e
  exact message_extends 0x0001 (ByteArrayN.zero 12) (by decide) [priority] [.add .fingerprint]

end Encoder

end Stunxx
