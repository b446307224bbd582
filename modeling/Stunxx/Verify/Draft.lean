import Stunxx.Verify.Contents
import Stunxx.Verify.Reading

/-!
# The message as a value

`Draft` is what an encoder is for, without a buffer: the attribute bytes of a message, and the
length its header says once it is sealed. Calls add the bytes of their attributes, up to a capacity,
and a seal is taken of the whole message under a header that counts the seal. The encoder, which
stores its header and its attributes in place and in pieces, is such a draft
(`Encoder.refines_draft`), whatever is called and whether it fails. So every buffer that a message
fits in makes the same one (`Encoder.any_buffer`).
-/

namespace Stunxx

open Overlay Machine

/-- A message in the making. `length` is the one in the header, once the message is sealed. -/
structure Draft where
  attrs : Bytes := []
  length : UInt16 := 0
  hasMessageIntegrity : Bool := false
  hasFingerprint : Bool := false
deriving DecidableEq

namespace Draft

/-- The attributes under a header that says `length`. -/
def under (type : UInt16) (tid : TransactionId) (d : Draft) (length : UInt16) : Bytes :=
  StunHeader.wire ⟨type, length, magicCookie, tid⟩ ++ d.attrs

/-- The finished message. -/
def message (type : UInt16) (tid : TransactionId) (d : Draft) : Bytes :=
  d.under type tid
    (if d.hasMessageIntegrity || d.hasFingerprint then d.length else UInt16.ofNat d.attrs.length)

variable [Platform]

/-- There is room for `n` more bytes. -/
def fits (capacity : Nat) (d : Draft) (n : Nat) : Bool :=
  decide (20 + d.attrs.length + n ≤ capacity)

def add (type : UInt16) (tid : TransactionId) (capacity : Nat) (d : Draft) :
    AddCall → AddResult × Draft
  | .ordinary a =>
    if !d.fits capacity (Encoder.slot a.obj).length then ({ ok := false }, d)
    else ({ ok := true }, { d with attrs := d.attrs ++ Encoder.slot a.obj })
  | .integrity kind a =>
    if !d.fits capacity (4 + kind.expectedSize) then ({ ok := false, attr := some ⟨kind, a⟩ }, d)
    else
      let length := UInt16.ofNat (d.attrs.length + (4 + kind.expectedSize))
      let computed := a.compute (d.under type tid length)
      if !computed.1 then ({ ok := false, attr := some ⟨kind, computed.2⟩ }, { d with length })
      else
        ({ ok := true, attr := some ⟨kind, computed.2⟩ },
          { d with
            attrs := d.attrs ++
              Encoder.slot (MessageIntegrityAttrT.ofHmac (T := kind.type) computed.2.hmac)
            length
            hasMessageIntegrity := true })
  | .fingerprint =>
    if d.hasFingerprint || !d.fits capacity 8 then ({ ok := false }, d)
    else
      let length := UInt16.ofNat (d.attrs.length + 8)
      let fp := FingerprintAttr.compute (d.under type tid length)
      ({ ok := true },
        { d with attrs := d.attrs ++ Encoder.slot fp, length, hasFingerprint := true })

def step (type : UInt16) (tid : TransactionId) (capacity : Nat) (d : Draft) :
    Call → AddResult × Draft
  | .add c => d.add type tid capacity c
  | .finalize => ({ ok := true }, d)

end Draft

/-! ## The encoder is a draft -/

namespace Encoder

section Refines

variable [Platform] {type : UInt16} {tid : TransactionId} {size : Nat} {e : Encoder} {d : Draft}

/-- The encoder holds the message of the draft, in a buffer of `size` bytes. -/
structure Refines (type : UInt16) (tid : TransactionId) (size : Nat) (e : Encoder) (d : Draft) :
    Prop extends Inv type tid size e where
  attrs : slice e.buffer.bytes 20 (e.offset - 20) = d.attrs
  length : e.Sealed → e.stunHeader = netHeader type d.length tid
  hasMessageIntegrity : e.hasMessageIntegrity = d.hasMessageIntegrity
  hasFingerprint : e.hasFingerprint = d.hasFingerprint

theorem refines_new (type : UInt16) (tid : TransactionId) (buffer : Bytes) :
    Refines type tid buffer.length (new type tid buffer) {} where
  toInv := inv_new type tid buffer
  attrs := rfl
  length h := by rcases h with h | h <;> cases h
  hasMessageIntegrity := rfl
  hasFingerprint := rfl

theorem Refines.length_attrs (h : Refines type tid size e d) (hsize : 20 ≤ size) :
    20 + d.attrs.length = e.offset := by
  have hoff := h.le_offset
  have hle := h.offset_le
  have hlen := h.length_eq
  rw [← h.attrs, length_slice_of_le (by omega)]
  omega

theorem Inv.stunHeader_writeLength (h : Inv type tid size e) (n : UInt16) :
    (e.writeLength n).stunHeader = netHeader type n tid := by
  obtain ⟨m, hm⟩ := h.header
  rw [Encoder.writeLength, hm]
  rfl

/-- A header is written over the message. -/
theorem Refines.writeLength (h : Refines type tid size e d) (hsize : 20 ≤ size) (n : UInt16) :
    Refines type tid size (e.writeLength n) { d with length := n } where
  toInv := h.toInv.writeLength n fun _ => hsize
  attrs := by
    have hoff := h.le_offset
    rw [(extends_writeLength e n).slice_eq (Nat.le_refl _) (by rw [writeLength_offset]; omega)]
    exact h.attrs
  length _ := h.toInv.stunHeader_writeLength n
  hasMessageIntegrity := h.hasMessageIntegrity
  hasFingerprint := h.hasFingerprint

/-- The message under a header that was just written. -/
theorem Refines.take_writeLength (h : Refines type tid size e d) (hsize : 20 ≤ size) (n : UInt16) :
    (e.writeLength n).buffer.bytes.take e.offset = d.under type tid n := by
  have hnew := h.writeLength hsize n
  have htake := headerWritten_writeLength (h.toInv.header_room hsize) n
  rw [HeaderWritten, h.toInv.stunHeader_writeLength n, netHeader_bytes] at htake
  have hattrs := hnew.attrs
  rw [writeLength_offset] at hattrs
  rw [take_eq_append_slice _ h.le_offset, htake, hattrs]
  rfl

/-- An attribute is appended. -/
theorem Refines.append (h : Refines type tid size e d) {α : Type} [AttributeSpec α] {a : α}
    (hready : AttributeSpec.ready a = true) (hvalue : AttributeSpec.valueSize a < 65536)
    (hroom : e.offset + padded a ≤ size) :
    Refines type tid size (e.append a) { d with attrs := d.attrs ++ slot a } where
  toInv := h.toInv.append a hroom
  attrs := by
    rw [slice_append_slot e hready hvalue (by rwa [h.length_eq]) h.le_offset, h.attrs]
  length hs := h.length hs
  hasMessageIntegrity := h.hasMessageIntegrity
  hasFingerprint := h.hasFingerprint

/-- What a seal is taken of, and the encoder then. -/
theorem Refines.announce (h : Refines type tid size e d) {n : Nat} (hroom : e.offset + n ≤ size) :
    (e.announce n).buffer.bytes.take e.offset =
        d.under type tid (UInt16.ofNat (d.attrs.length + n)) ∧
      (e.announce n).stunHeader = netHeader type (UInt16.ofNat (d.attrs.length + n)) tid ∧
      Refines type tid size (e.announce n)
        { d with length := UInt16.ofNat (d.attrs.length + n) } := by
  have hoff := h.le_offset
  have hsize : 20 ≤ size := by omega
  have hlen : e.offset - 20 = d.attrs.length := by
    rw [← h.length_attrs hsize, Nat.add_sub_cancel_left]
  rw [announce_eq, hlen]
  exact ⟨h.take_writeLength hsize _, h.toInv.stunHeader_writeLength _, h.writeLength hsize _⟩

theorem Refines.ordinary (h : Refines type tid size e d) (hsize : 20 ≤ size) {a : Attr}
    (hvalue : a.valueSize ≤ 65535) :
    (e.add (.ordinary a)).1 = (d.add type tid size (.ordinary a)).1 ∧
      Refines type tid size (e.add (.ordinary a)).2 (d.add type tid size (.ordinary a)).2 := by
  have hlt := Nat.lt_succ_of_le hvalue
  have hslot := length_slot a.ready hlt
  have hoff := h.length_attrs hsize
  simp only [Encoder.add, Draft.add, addAttribute_eq e a.ready, room_of_lt a.ready hlt, h.length_eq,
    Nat.le_refl, and_true, Draft.fits, hslot, hoff]
  by_cases hroom : e.offset + padded a.obj ≤ size
  · simp only [hroom, if_true, decide_true, Bool.not_true, Bool.false_eq_true, if_false]
    exact ⟨trivial, h.append a.ready hlt hroom⟩
  · simp only [hroom, if_false, decide_false, Bool.not_false, if_true]
    exact ⟨trivial, h⟩

theorem Refines.integrity (h : Refines type tid size e d) (hsize : 20 ≤ size)
    (kind : IntegrityKind) (a : kind.Obj) :
    (e.add (.integrity kind a)).1 = (d.add type tid size (.integrity kind a)).1 ∧
      Refines type tid size (e.add (.integrity kind a)).2
        (d.add type tid size (.integrity kind a)).2 := by
  have hoff := h.length_attrs hsize
  have hseal : sealSize kind.type = 4 + kind.expectedSize := rfl
  simp only [Encoder.add, Draft.add, addMessageIntegrity_eq, h.length_eq, Draft.fits, hoff, hseal]
  by_cases hfull : size < e.offset + (4 + kind.expectedSize)
  · simp only [hfull, if_true, Nat.not_le.2 hfull, decide_false, Bool.not_false]
    exact ⟨trivial, h⟩
  · obtain ⟨htake, hheader, hannounced⟩ :=
      h.announce (n := 4 + kind.expectedSize) (Nat.not_lt.1 hfull)
    have hcomputed : e.computed a = a.compute
        (d.under type tid (UInt16.ofNat (d.attrs.length + (4 + kind.expectedSize)))) := by
      rw [computed, hseal, htake]
    simp only [hfull, if_false, Nat.not_lt.1 hfull, decide_true, Bool.not_true, Bool.false_eq_true,
      hcomputed]
    generalize hresult : a.compute _ = result
    cases hok : result.1 with
    | false =>
      have hsame := MessageIntegrityAttrT.compute_eq_false (hresult ▸ hok)
      rw [hresult] at hsame
      simp only [hsame, Bool.not_false, if_true]
      exact ⟨trivial, hannounced⟩
    | true =>
      have hdigest : result.2.hmac.length = kind.expectedSize :=
        hresult ▸ (MessageIntegrityAttrT.compute_eq_true (hresult ▸ hok)).2.1
      obtain ⟨hready, hvalue⟩ := ready_ofHmac hdigest
      have hpad := padded_of_hmac (a := .ofHmac (T := kind.type) result.2.hmac) hdigest
      have happended := hannounced.append hready hvalue
        (by rw [hpad, hseal, announce_offset]; exact Nat.not_lt.1 hfull)
      simp only [Bool.true_eq_false, if_false, Bool.not_true, Bool.false_eq_true]
      exact ⟨trivial, ⟨(h.toInv.sign hdigest (Nat.not_lt.1 hfull)).1, happended.attrs,
        fun _ => hheader, rfl, happended.hasFingerprint⟩⟩

theorem Refines.stamp (h : Refines type tid size e d) (hsize : 20 ≤ size) :
    (e.add .fingerprint).1 = (d.add type tid size .fingerprint).1 ∧
      Refines type tid size (e.add .fingerprint).2 (d.add type tid size .fingerprint).2 := by
  have hoff := h.length_attrs hsize
  have hseal : fingerprintSize = 8 := rfl
  simp only [Encoder.add, Draft.add, addFingerprint_eq, h.length_eq, Draft.fits, hoff, hseal,
    h.hasFingerprint]
  by_cases hfull : d.hasFingerprint = true ∨ size < e.offset + 8
  · have hrefused : (d.hasFingerprint || !decide (e.offset + 8 ≤ size)) = true := by
      simpa using hfull
    simp only [hfull, hrefused, if_true]
    exact ⟨trivial, h⟩
  · have hpassed : (d.hasFingerprint || !decide (e.offset + 8 ≤ size)) = false := by
      simpa using hfull
    have hroom := Nat.not_lt.1 (not_or.1 hfull).2
    obtain ⟨htake, hheader, hannounced⟩ := h.announce hroom
    have hfp : e.fingerprint =
        FingerprintAttr.compute (d.under type tid (UInt16.ofNat (d.attrs.length + 8))) := by
      rw [Encoder.fingerprint, hseal, htake]
    have hpad := padded_fingerprint e.fingerprint
    have happended := hannounced.append (a := e.fingerprint) rfl e.valueSize_fingerprint_lt
      (by rw [hpad, hseal, announce_offset]; exact hroom)
    simp only [hfull, hpassed, if_false, Bool.false_eq_true, ← hfp]
    exact ⟨trivial, ⟨(h.toInv.stamp hroom).1, happended.attrs, fun _ => hheader,
      happended.hasMessageIntegrity, rfl⟩⟩

theorem Refines.finalize (h : Refines type tid size e d) (hsize : 20 ≤ size) :
    Refines type tid size e.finalize d := by
  by_cases hs : e.Sealed
  · rwa [finalize_of_sealed hs]
  · have hwritten := h.writeLength hsize e.stunSize
    rw [finalize_of_not_sealed hs]
    exact ⟨hwritten.toInv, hwritten.attrs, fun hsealed => absurd hsealed hs,
      h.hasMessageIntegrity, h.hasFingerprint⟩

/-- **A call of the encoder is the call of the draft.** -/
theorem Refines.step (h : Refines type tid size e d) (hsize : 20 ≤ size) {call : Call}
    (hshort : call.Short) :
    (e.step call).1 = (d.step type tid size call).1 ∧
      Refines type tid size (e.step call).2 (d.step type tid size call).2 := by
  cases call with
  | finalize => exact ⟨rfl, h.finalize hsize⟩
  | add c =>
    cases c with
    | ordinary a => exact h.ordinary hsize hshort
    | integrity kind a => exact h.integrity hsize kind a
    | fingerprint => exact h.stamp hsize

/-- The finished message is the draft's. -/
theorem Refines.message_eq (h : Refines type tid size e d) (hsize : 20 ≤ size) :
    e.message = d.message type tid := by
  have hoff := h.length_attrs hsize
  have hfinal := h.finalize hsize
  have hheader := h.toInv.headerWritten_finalize hsize
  have hattrs := hfinal.attrs
  have hsame : e.finalize.offset = e.offset := finalize_totalSize e
  rw [hsame] at hattrs
  rw [message, finalize_totalSize, take_eq_append_slice _ h.le_offset, hheader, hattrs,
    Draft.message, Draft.under, ← netHeader_bytes]
  by_cases hs : e.Sealed
  · have hsealed : (d.hasMessageIntegrity || d.hasFingerprint) = true := by
      rwa [Bool.or_eq_true, ← h.hasMessageIntegrity, ← h.hasFingerprint]
    rw [finalize_of_sealed hs, h.length hs, if_pos hsealed]
  · have hopen : ¬(d.hasMessageIntegrity || d.hasFingerprint) = true := by
      rwa [Bool.or_eq_true, ← h.hasMessageIntegrity, ← h.hasFingerprint]
    have hlen : e.stunSize = UInt16.ofNat d.attrs.length := by
      rw [stunSize, stunHeaderSize, ← hoff, Nat.add_sub_cancel_left]
    rw [finalize_of_not_sealed hs, h.toInv.stunHeader_writeLength, hlen, if_neg hopen]

/-- **The encoder is a draft**: on any buffer with room for a header, every run of calls with values
of at most 65535 bytes returns what the draft returns, failures included, and leaves its message. -/
theorem refines_draft (type : UInt16) (tid : TransactionId) {buffer : Bytes}
    (hsize : 20 ≤ buffer.length) {calls : List Call} (hshort : ∀ call ∈ calls, call.Short) :
    (run step (new type tid buffer) calls).1 =
        (run (Draft.step type tid buffer.length) {} calls).1 ∧
      (run step (new type tid buffer) calls).2.message =
        (run (Draft.step type tid buffer.length) {} calls).2.message type tid := by
  obtain ⟨hresults, hlast⟩ := run_simulated step (Draft.step type tid buffer.length) calls
    (fun _ _ call hmem h => h.step hsize (hshort call hmem)) (refines_new type tid buffer)
  exact ⟨hresults, hlast.message_eq hsize⟩

end Refines

end Encoder

/-! ## The capacity -/

namespace Draft

section Capacity

variable [Platform] {type : UInt16} {tid : TransactionId} {capacity capacity' : Nat} {d : Draft}

omit [Platform] in
theorem length_slot_ofHmac {kind : IntegrityKind} {digest : Bytes}
    (h : digest.length = kind.expectedSize) :
    (Encoder.slot (MessageIntegrityAttrT.ofHmac (T := kind.type) digest)).length =
      4 + kind.expectedSize := by
  obtain ⟨hready, hvalue⟩ := Encoder.ready_ofHmac h
  rw [Encoder.length_slot hready hvalue]
  exact Encoder.padded_of_hmac h

theorem length_slot_fingerprint (fp : FingerprintAttr) : (Encoder.slot fp).length = 8 := by
  have hlt : AttributeSpec.valueSize fp < 65536 := by
    rw [Encoder.valueSize_fingerprint]
    decide
  rw [Encoder.length_slot rfl hlt]
  exact Encoder.padded_fingerprint fp

/-- No call takes anything back. -/
theorem length_le_step (d : Draft) (call : Call) :
    d.attrs.length ≤ (d.step type tid capacity call).2.attrs.length := by
  cases call with
  | finalize => exact Nat.le_refl _
  | add c =>
    cases c with
    | ordinary a =>
      simp only [step, add]
      split
      · exact Nat.le_refl _
      · simp
    | integrity kind a =>
      simp only [step, add]
      split
      · exact Nat.le_refl _
      · split
        · exact Nat.le_refl _
        · simp
    | fingerprint =>
      simp only [step, add]
      split
      · exact Nat.le_refl _
      · simp

/-- A call that succeeds asks for no more than it leaves. -/
theorem step_capacity (d : Draft) (call : Call)
    (h : (d.step type tid capacity call).1.ok = true ∧
      20 + (d.step type tid capacity call).2.attrs.length ≤ capacity') :
    d.step type tid capacity' call = d.step type tid capacity call := by
  obtain ⟨hok, hroom⟩ := h
  cases call with
  | finalize => rfl
  | add c =>
    cases c with
    | ordinary a =>
      simp only [step, add] at hok hroom ⊢
      cases hfits : d.fits capacity (Encoder.slot a.obj).length with
      | false => simp [hfits] at hok
      | true =>
        simp only [hfits, Bool.not_true, Bool.false_eq_true, if_false, List.length_append] at hroom
        have hfits' : d.fits capacity' (Encoder.slot a.obj).length = true := by
          rw [fits, decide_eq_true_eq]
          omega
        rw [hfits']
    | integrity kind a =>
      simp only [step, add] at hok hroom ⊢
      cases hfits : d.fits capacity (4 + kind.expectedSize) with
      | false => simp [hfits] at hok
      | true =>
        simp only [hfits, Bool.not_true, Bool.false_eq_true, if_false] at hok hroom
        generalize hresult : a.compute _ = result at hok hroom ⊢
        cases hcomputed : result.1 with
        | false => simp [hcomputed] at hok
        | true =>
          have hdigest : result.2.hmac.length = kind.expectedSize :=
            hresult ▸ (MessageIntegrityAttrT.compute_eq_true (hresult ▸ hcomputed)).2.1
          have hslot := length_slot_ofHmac hdigest
          simp only [hcomputed, Bool.not_true, Bool.false_eq_true, if_false, List.length_append,
            hslot] at hroom
          have hfits' : d.fits capacity' (4 + kind.expectedSize) = true := by
            rw [fits, decide_eq_true_eq]
            omega
          rw [hfits']
    | fingerprint =>
      simp only [step, add] at hok hroom ⊢
      cases hfits : d.hasFingerprint || !d.fits capacity 8 with
      | true => simp [hfits] at hok
      | false =>
        obtain ⟨hfirst, hfits⟩ := Bool.or_eq_false_iff.1 hfits
        simp only [hfirst, hfits, Bool.or_self, Bool.false_eq_true, if_false, List.length_append,
          length_slot_fingerprint] at hroom
        have hfits' : d.fits capacity' 8 = true := by
          rw [fits, decide_eq_true_eq]
          omega
        rw [hfits', hfirst]
        rfl

/-- A run that succeeds needs no more capacity than it leaves attributes. -/
theorem run_capacity {calls : List Call}
    (hok : ∀ r ∈ (run (step type tid capacity) d calls).1, r.ok = true)
    (hroom : 20 + (run (step type tid capacity) d calls).2.attrs.length ≤ capacity') :
    run (step type tid capacity') d calls = run (step type tid capacity) d calls := by
  refine run_congr (step type tid capacity)
    (G := fun r d => r.ok = true ∧ 20 + d.attrs.length ≤ capacity') step_capacity ?_
  rintro pre call post rfl
  rw [run_append, run_cons] at hok hroom
  generalize (run (step type tid capacity) d pre).2 = d' at hok hroom ⊢
  refine ⟨hok _ (List.mem_append_right _ List.mem_cons_self), ?_⟩
  have hmono := @run_invariant _ _ _ (step type tid capacity)
    (fun f => (d'.step type tid capacity call).2.attrs.length ≤ f.attrs.length) post
    (fun f c _ hf => hf.trans (length_le_step f c)) _ (Nat.le_refl _)
  exact (Nat.add_le_add_left hmono 20).trans hroom

end Capacity

end Draft

namespace Encoder

section AnyBuffer

variable [Platform]

theorem length_message_le (type : UInt16) (tid : TransactionId) {buffer : Bytes}
    (hsize : 20 ≤ buffer.length) (calls : List Call) :
    (run step (new type tid buffer) calls).2.message.length ≤ buffer.length := by
  have hinv := (inv_new type tid buffer).run calls
  have hle := hinv.offset_le
  rw [hinv.length_message hsize]
  omega

/-- **The buffer does not matter**: calls that succeed in one buffer succeed in another one exactly
when the message fits there, and then they return the same and make the same message. -/
theorem any_buffer (type : UInt16) (tid : TransactionId) {buffer buffer' : Bytes}
    (hsize : 20 ≤ buffer.length) (hsize' : 20 ≤ buffer'.length) {calls : List Call}
    (hshort : ∀ call ∈ calls, call.Short)
    (hok : ∀ r ∈ (run step (new type tid buffer) calls).1, r.ok = true) :
    let m := (run step (new type tid buffer) calls).2.message
    ((∀ r ∈ (run step (new type tid buffer') calls).1, r.ok = true) ↔
        m.length ≤ buffer'.length) ∧
      (m.length ≤ buffer'.length →
        (run step (new type tid buffer') calls).1 = (run step (new type tid buffer) calls).1 ∧
          (run step (new type tid buffer') calls).2.message = m) := by
  obtain ⟨hresults, hmessage⟩ := refines_draft type tid hsize hshort
  obtain ⟨hresults', hmessage'⟩ := refines_draft type tid hsize' hshort
  -- a draft that succeeds makes the same message in every capacity that its message fits in
  have hsame : ∀ {size size' : Nat},
      (∀ r ∈ (run (Draft.step type tid size) {} calls).1, r.ok = true) →
      ((run (Draft.step type tid size) {} calls).2.message type tid).length ≤ size' →
      run (Draft.step type tid size') {} calls = run (Draft.step type tid size) {} calls := by
    intro size size' hok hroom
    rw [Draft.message, Draft.under, List.length_append, StunHeader.length_wire] at hroom
    exact Draft.run_capacity hok hroom
  have hfits := length_message_le type tid hsize calls
  have hfits' := length_message_le type tid hsize' calls
  rw [hmessage] at hfits
  rw [hmessage'] at hfits'
  rw [hresults] at hok
  rw [hresults, hresults', hmessage, hmessage']
  refine ⟨⟨fun hok' => ?_, fun hroom => ?_⟩, fun hroom => ?_⟩
  · by_contra hfull
    have hback := hsame hok' (by omega : _ ≤ buffer.length)
    rw [hback] at hfull
    exact hfull hfits'
  · rwa [hsame hok hroom]
  · rw [hsame hok hroom]
    exact ⟨rfl, rfl⟩

end AnyBuffer

/-! A PRIORITY and a FINGERPRINT in two buffers, and an attribute that fits in neither. -/

local instance draftHost : Platform := .ofDigest []

theorem refines_draft_priority :
    let buffer : Bytes := List.replicate 40 0xFF
    let priority : Call := .add (.ordinary ⟨.priority, rfl, ⟨7⟩⟩)
    let nonce : Call := .add (.ordinary ⟨.nonce, rfl, ⟨List.replicate 20 0x61⟩⟩)
    let calls := [priority, nonce, .add .fingerprint]
    (run step (new 0x0001 (ByteArrayN.zero 12) buffer) calls).2.message =
      (run (Draft.step 0x0001 (ByteArrayN.zero 12) 40) {} calls).2.message 0x0001
        (ByteArrayN.zero 12) := by
  intro buffer priority nonce calls
  have hshort : ∀ call ∈ calls, call.Short := by
    intro call hcall
    simp only [calls, List.mem_cons, List.not_mem_nil, or_false] at hcall
    rcases hcall with rfl | rfl | rfl
    · show 4 ≤ 65535
      decide
    · show 20 ≤ 65535
      decide
    · trivial
  exact (refines_draft 0x0001 (ByteArrayN.zero 12) (by decide : 20 ≤ buffer.length) hshort).2

theorem any_buffer_priority :
    let buffer : Bytes := List.replicate 40 0xFF
    let calls : List Call := [.add (.ordinary ⟨.priority, rfl, ⟨7⟩⟩), .add .fingerprint]
    (run step (new 0x0001 (ByteArrayN.zero 12) (List.replicate 36 0)) calls).2.message =
      (run step (new 0x0001 (ByteArrayN.zero 12) buffer) calls).2.message := by
  intro buffer calls
  have hshort : ∀ call ∈ calls, call.Short := by
    intro call hcall
    simp only [calls, List.mem_cons, List.not_mem_nil, or_false] at hcall
    rcases hcall with rfl | rfl
    · show 4 ≤ 65535
      decide
    · trivial
  exact ((any_buffer 0x0001 (ByteArrayN.zero 12) (by decide : 20 ≤ buffer.length)
    (by decide : 20 ≤ (List.replicate 36 (0 : UInt8)).length) hshort (by decide +kernel)).2
    (by decide +kernel)).2

end Encoder

end Stunxx
