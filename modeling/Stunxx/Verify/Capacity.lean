import Stunxx.Verify.Sent

/-!
# How much an encoder takes

A successful add moves the offset by the size of its attribute (`Outcome.offset_eq`), so a run of
them moves it by the sum of the sizes. Two results rest on this. The 16-bit length of a message is
right exactly when the sum is below 65536: nothing in `addAttribute` bounds it but the buffer. And
an attribute whose size fits in 16 bits is accepted exactly when it fits behind the message: the
slot `addAttribute` carves from `length()` is the span that each `encode` asks for.
-/

namespace Stunxx

open Overlay Machine

/-- The size of the attribute that a call adds. -/
def AddCall.size [Platform] (c : AddCall) : Nat := attrHeaderSize + roundUp4 c.length

namespace Encoder

theorem sealSize_eq (kind : IntegrityKind) :
    sealSize kind.type = attrHeaderSize + roundUp4 kind.expectedSize := by
  have hround : roundUp4 kind.expectedSize = kind.expectedSize :=
    MessageIntegrityAttrT.roundUp4_expectedSize kind.type
  rw [sealSize, hround, IntegrityKind.expectedSize]

section Capacity

variable [Platform]

/-- An add moves the offset by the size of its attribute, or not at all. -/
theorem Outcome.offset_eq {e e' : Encoder} {c : AddCall} {r : AddResult} (h : Outcome e c r e') :
    e'.offset = if r.ok = true then e.offset + c.size else e.offset := by
  cases h with
  | refused => rfl
  | announced => rfl
  | ordinary => rfl
  | @integrity kind a digest _ _ hsize =>
    have hpad := padded_of_hmac (a := .ofHmac (T := kind.type) digest) hsize
    rw [sealSize_eq] at hpad
    exact congrArg (e.offset + ·) hpad
  | fingerprint =>
    have hround : FingerprintAttr.valueSize = roundUp4 4 := rfl
    have hsize := congrArg (attrHeaderSize + ·) hround
    exact congrArg (e.offset + ·) ((padded_fingerprint e.fingerprint).trans hsize)

theorem add_totalSize {e : Encoder} {c : AddCall} (hok : (e.add c).1.ok = true) :
    (e.add c).2.totalSize = e.totalSize + c.size := by
  have hoffset := (add_outcome e c).offset_eq
  rwa [if_pos hok] at hoffset

/-- A run of adds that all succeed moves the offset by the sum of the sizes. -/
theorem run_totalSize (e : Encoder) {calls : List AddCall}
    (hok : ∀ r ∈ (run add e calls).1, r.ok = true) :
    (run add e calls).2.totalSize = e.totalSize + (calls.map AddCall.size).sum := by
  induction calls generalizing e with
  | nil => rfl
  | cons c calls ih =>
    have hhead := add_totalSize (hok _ List.mem_cons_self)
    have htail := ih (e.add c).2 fun r hr => hok r (List.mem_cons_of_mem _ hr)
    rw [List.map_cons, List.sum_cons, ← Nat.add_assoc, ← hhead, ← htail]
    rfl

/-! ## The 16-bit length -/

/-- Only a seal seals a message. -/
theorem Outcome.sealed_iff {e e' : Encoder} {a : Attr} {r : AddResult}
    (h : Outcome e (.ordinary a) r e') : e'.Sealed ↔ e.Sealed := by
  cases h with
  | refused => exact Iff.rfl
  | ordinary => exact Iff.rfl

theorem run_ordinary_sealed_iff (e : Encoder) (attrs : List Attr) :
    (run add e (attrs.map .ordinary)).2.Sealed ↔ e.Sealed := by
  induction attrs generalizing e with
  | nil => exact Iff.rfl
  | cons a attrs ih =>
    have hhead := (add_outcome e (.ordinary a)).sealed_iff
    exact (ih (e.add (.ordinary a)).2).trans hhead

/-- `finalize` writes the length of a message that is not sealed, if the buffer reaches that far. -/
theorem Inv.slice_finalize {type : UInt16} {tid : TransactionId} {size : Nat} {e : Encoder}
    (h : Inv type tid size e) (hsealed : ¬e.Sealed) (hsize : 4 ≤ size) :
    slice e.finalize.buffer.bytes 2 2 = writeBe16 e.stunSize := by
  obtain ⟨length, hlength⟩ := h.header
  have hlen := h.length_eq
  have hbytes : e.finalize.buffer.bytes =
      overlay e.buffer.bytes 0 (StunHeader.wire ⟨type, e.stunSize, magicCookie, tid⟩) := by
    rw [finalize_of_not_sealed hsealed, Encoder.writeLength, hlength, ← netHeader_bytes]
    rfl
  rw [hbytes, slice_overlay_of_within (Nat.zero_le 2) (by rw [StunHeader.length_wire]; omega)
    (by omega)]
  rfl

/-- **When the length of a message is right**: after any run of ordinary adds that all succeeded,
`stunSize` and the length that `finalize` writes are the size of the attributes exactly when that
size fits in 16 bits and the buffer has room for the length field. -/
theorem stunSize_exact_iff {type : UInt16} {tid : TransactionId} {buffer : Bytes}
    {attrs : List Attr} {results : List AddResult} {e : Encoder}
    (hrun : run add (new type tid buffer) (attrs.map .ordinary) = (results, e))
    (hok : ∀ r ∈ results, r.ok = true) :
    (e.stunSize.toNat = e.totalSize - 20 ∧
      ∃ length, slice e.finalize.buffer.bytes 2 2 = writeBe16 length ∧
        length.toNat = e.totalSize - 20) ↔
      (attrs.map fun a => 4 + roundUp4 (StunAttribute.length a.obj)).sum ≤ 65535 ∧
        4 ≤ buffer.length := by
  have hinv := (inv_new type tid buffer).run_add (attrs.map .ordinary)
  have hsealed := (run_ordinary_sealed_iff (new type tid buffer) attrs).not.2
    (by rintro (h | h) <;> cases h)
  have hoks : ∀ r ∈ (run add (new type tid buffer) (attrs.map .ordinary)).1, r.ok = true := by
    rw [hrun]
    exact hok
  have htotal := run_totalSize (new type tid buffer) hoks
  rw [hrun] at hinv hsealed htotal
  rw [List.map_map] at htotal
  have hsum : e.totalSize - 20 =
      (attrs.map fun a => 4 + roundUp4 (StunAttribute.length a.obj)).sum := by
    rw [htotal]
    exact Nat.add_sub_cancel_left 20 _
  have hsize : e.stunSize.toNat = (e.totalSize - 20) % 65536 := UInt16.toNat_ofNat'
  rw [← hsum]
  constructor
  · rintro ⟨hstun, length, hslice, -⟩
    have hread := congrArg List.length hslice
    rw [length_slice, length_writeBe16, hinv.finalize.length_eq] at hread
    omega
  · rintro ⟨hbound, hroom⟩
    rw [Nat.mod_eq_of_lt (by omega)] at hsize
    exact ⟨hsize, e.stunSize, hinv.slice_finalize hsealed hroom, hsize⟩

/-! ## What fits -/

/-- An attribute whose size fits in 16 bits asks for the slot the encoder gives it. -/
theorem addAttribute_ok_iff (e : Encoder) {a : Attr} (hvalue : a.valueSize ≤ 65535) :
    (e.add (.ordinary a)).1.ok = true ↔
      e.totalSize + (attrHeaderSize + roundUp4 a.valueSize) ≤ e.buffer.bytes.length := by
  have hlen : StunAttribute.length a.obj = a.valueSize :=
    length_of_lt a.ready (Nat.lt_succ_of_le hvalue)
  have hroom := room_of_lt a.ready (Nat.lt_succ_of_le hvalue)
  simp only [add, addAttribute_eq e a.ready, hroom, Nat.le_refl, and_true]
  rw [padded, hlen, totalSize]
  by_cases h : e.offset + (attrHeaderSize + roundUp4 a.valueSize) ≤ e.buffer.bytes.length
  · rw [if_pos h]
    exact iff_of_true rfl h
  · rw [if_neg h]
    exact iff_of_false (by simp) h

end Capacity

end Encoder

namespace AddCall

/-- The size of the value of the attribute that a call adds. -/
def valueSize [Platform] : AddCall → Nat
  | ordinary a => a.valueSize
  | integrity kind _ => kind.expectedSize
  | fingerprint => FingerprintAttr.valueSize

/-- A call of `addAttribute` with a value of at most 65535 bytes, or with a key. -/
inductive Addable [Platform] : AddCall → Prop
  | ordinary {a : Attr} (h : a.valueSize ≤ 65535) : Addable (ordinary a)
  | integrity {kind : IntegrityKind} {a : kind.Obj} (h : a.key ≠ []) : Addable (integrity kind a)

end AddCall

/-- `HMAC` always returns a digest of the size the library expects. -/
def HmacSucceeds [Platform] : Prop :=
  ∀ (kind : IntegrityKind) (key message : Bytes), ∃ digest,
    Platform.hmac (MessageIntegrityAttrT.md kind.type) key message = some digest ∧
      digest.length = kind.expectedSize

namespace Encoder

section Capacity

variable [Platform]

theorem compute_ok (hhmac : HmacSucceeds) {kind : IntegrityKind} {a : kind.Obj} (hkey : a.key ≠ [])
    (message : Bytes) : (a.compute message).1 = true := by
  obtain ⟨digest, hdigest, hsize⟩ := hhmac kind a.key message
  have hlen : ¬digest.length ≠ MessageIntegrityAttrT.expectedSize kind.type := not_not.2 hsize
  unfold MessageIntegrityAttrT.compute
  rw [if_neg (by simpa using hkey), hdigest]
  simp only [if_neg hlen]

/-- **An add succeeds exactly when its attribute fits**, and then the message grows by its size. -/
theorem add_ok_iff (hhmac : HmacSucceeds) (e : Encoder) {c : AddCall} (hc : c.Addable) :
    ((e.add c).1.ok = true ↔
      e.totalSize + (attrHeaderSize + roundUp4 c.valueSize) ≤ e.buffer.bytes.length) ∧
    ((e.add c).1.ok = true →
      (e.add c).2.totalSize = e.totalSize + (attrHeaderSize + roundUp4 c.valueSize)) := by
  cases hc with
  | @ordinary a hvalue =>
    have hlen : StunAttribute.length a.obj = a.valueSize :=
      length_of_lt a.ready (Nat.lt_succ_of_le hvalue)
    refine ⟨addAttribute_ok_iff e hvalue, fun hok => ?_⟩
    rw [add_totalSize hok, AddCall.size, AddCall.length, hlen]
    rfl
  | @integrity kind a hkey =>
    have hcomp : (e.computed a).1 = true := compute_ok hhmac hkey _
    refine ⟨?_, add_totalSize⟩
    simp only [add, addMessageIntegrity_eq, AddCall.valueSize]
    rw [← sealSize_eq, totalSize]
    by_cases h : e.buffer.bytes.length < e.offset + sealSize kind.type
    · rw [if_pos h]
      exact iff_of_false (by simp) (by omega)
    · rw [if_neg h, if_neg (by simp [hcomp])]
      exact iff_of_true rfl (by omega)

/-- A list of attributes is accepted exactly when all of it fits. -/
theorem run_ok_iff (hhmac : HmacSucceeds) {type : UInt16} {tid : TransactionId} {size : Nat}
    {e : Encoder} (h : Inv type tid size e) (hfits : e.totalSize ≤ size) {calls : List AddCall}
    (hcalls : ∀ c ∈ calls, c.Addable) :
    (∀ r ∈ (run add e calls).1, r.ok = true) ↔
      e.totalSize + (calls.map fun c => attrHeaderSize + roundUp4 c.valueSize).sum ≤ size := by
  induction calls generalizing e with
  | nil => exact iff_of_true (by simp) hfits
  | cons c calls ih =>
    obtain ⟨hok, hgrow⟩ := add_ok_iff hhmac e (hcalls c List.mem_cons_self)
    have hnext := h.outcome (add_outcome e c)
    have hrest : ∀ d ∈ calls, d.Addable := fun d hd => hcalls d (List.mem_cons_of_mem c hd)
    rw [h.length_eq] at hok
    rw [run_cons, List.forall_mem_cons, List.map_cons, List.sum_cons, ← Nat.add_assoc]
    constructor
    · rintro ⟨hhead, htail⟩
      have hle := hok.1 hhead
      have hsum := (ih hnext (by rw [hgrow hhead]; exact hle) hrest).1 htail
      rwa [hgrow hhead] at hsum
    · intro hle
      have hhead := hok.2 (by omega)
      refine ⟨hhead, (ih hnext ?_ hrest).2 ?_⟩
      · rw [hgrow hhead]
        omega
      · rw [hgrow hhead]
        exact hle

/-- **What fits is accepted, and nothing else**: one attribute, after any calls, and a list of
attributes in a fresh encoder. -/
theorem accepted_iff_fits (hhmac : HmacSucceeds) (type : UInt16) (tid : TransactionId)
    {buffer : Bytes} (hsize : 20 ≤ buffer.length) :
    (∀ (calls : List Call) (c : AddCall) (e : Encoder), c.Addable →
      e = (run step (new type tid buffer) calls).2 →
      ((e.add c).1.ok = true ↔ e.totalSize + (4 + roundUp4 c.valueSize) ≤ buffer.length) ∧
      ((e.add c).1.ok = true →
        (e.add c).2.totalSize = e.totalSize + (4 + roundUp4 c.valueSize))) ∧
    ∀ calls : List AddCall, (∀ c ∈ calls, c.Addable) →
      ((∀ r ∈ (run add (new type tid buffer) calls).1, r.ok = true) ↔
        20 + (calls.map fun c => 4 + roundUp4 c.valueSize).sum ≤ buffer.length) := by
  constructor
  · rintro calls c e hc rfl
    have hinv := (inv_new type tid buffer).run calls
    have hiff := add_ok_iff hhmac (run step (new type tid buffer) calls).2 hc
    rwa [hinv.length_eq] at hiff
  · intro calls hcalls
    exact run_ok_iff hhmac (inv_new type tid buffer) hsize hcalls

end Capacity

/-! A host on which every message can be signed, an attribute that fits, and one whose padding takes
the message past 65535 bytes. -/

local instance sizedHost : Platform where
  native := .little
  hmac md _ _ := some (List.replicate (match md with | .sha1 => 20 | .sha256 => 32) 0)

theorem hmacSucceeds_sizedHost : HmacSucceeds := by
  intro kind key message
  cases kind
  · exact ⟨List.replicate 20 0, rfl, rfl⟩
  · exact ⟨List.replicate 32 0, rfl, rfl⟩

def lifetimeAttr : Attr := ⟨.lifetime, rfl, ⟨600⟩⟩

def paddedSoftware : Attr := ⟨.software, rfl, ⟨List.replicate 65535 0⟩⟩

theorem stunSize_exact_iff_lifetime :
    ((run add (new 0x0001 (ByteArrayN.zero 12) (List.replicate 64 0))
        ([lifetimeAttr].map .ordinary)).2.stunSize.toNat = 8 ∧
      ∃ length, slice (run add (new 0x0001 (ByteArrayN.zero 12) (List.replicate 64 0))
          ([lifetimeAttr].map .ordinary)).2.finalize.buffer.bytes 2 2 = writeBe16 length ∧
        length.toNat = 8) ↔ 8 ≤ 65535 ∧ 4 ≤ 64 :=
  stunSize_exact_iff rfl (by decide +kernel)

/-- A LIFETIME and a MESSAGE-INTEGRITY-SHA256 fill a buffer of 64 bytes, and one that is a byte
shorter is too short. -/
theorem accepted_iff_fits_lifetime :
    let calls : List AddCall := [.ordinary lifetimeAttr, .integrity .sha256 (.ofKey [0x6B])]
    (∀ r ∈ (run add (new 0x0001 (ByteArrayN.zero 12) (List.replicate 64 0)) calls).1,
        r.ok = true) ∧
      ¬∀ r ∈ (run add (new 0x0001 (ByteArrayN.zero 12) (List.replicate 63 0)) calls).1,
        r.ok = true := by
  intro calls
  have hcalls : ∀ c ∈ calls, c.Addable := by
    intro c hc
    simp only [calls, List.mem_cons, List.not_mem_nil, or_false] at hc
    rcases hc with rfl | rfl
    · exact .ordinary (by decide)
    · exact .integrity (List.cons_ne_nil _ _)
  have hfits := fun {buffer} (hsize : 20 ≤ List.length buffer) =>
    (accepted_iff_fits hmacSucceeds_sizedHost 0x0001 (ByteArrayN.zero 12) hsize).2 calls hcalls
  refine ⟨(hfits (by decide)).2 (by decide), fun hok => ?_⟩
  exact absurd ((hfits (by decide)).1 hok) (by decide)

/-- What an attribute of 65535 bytes does to a fresh encoder that has room for it. -/
theorem add_paddedSoftware {e : Encoder} (hempty : e.totalSize = 20)
    (hroom : 65560 ≤ e.buffer.bytes.length) :
    (e.add (.ordinary paddedSoftware)).1.ok = true ∧
      (e.add (.ordinary paddedSoftware)).2.totalSize = 65560 ∧
      (e.add (.ordinary paddedSoftware)).2.stunSize = 4 := by
  have hvalue : paddedSoftware.valueSize = 65535 := List.length_replicate
  obtain ⟨hiff, hgrow⟩ := add_ok_iff hmacSucceeds_sizedHost e (c := .ordinary paddedSoftware)
    (.ordinary hvalue.le)
  rw [AddCall.valueSize, hvalue, hempty] at hiff hgrow
  have hok := hiff.2 hroom
  have htotal := hgrow hok
  refine ⟨hok, htotal, ?_⟩
  rw [stunSize, ← totalSize, htotal]
  rfl

/-- The attribute is accepted, and the message of 65560 bytes announces four. -/
theorem stunSize_wraps :
    ∃ results e, run add (new 0x0001 (ByteArrayN.zero 12) (List.replicate 65560 0))
        ([paddedSoftware].map .ordinary) = (results, e) ∧
      (∀ r ∈ results, r.ok = true) ∧ e.totalSize = 65560 ∧ e.stunSize = 4 ∧
      ¬(e.stunSize.toNat = e.totalSize - 20 ∧
        ∃ length, slice e.finalize.buffer.bytes 2 2 = writeBe16 length ∧
          length.toNat = e.totalSize - 20) := by
  have hlen : (List.replicate 65560 (0 : UInt8)).length = 65560 := List.length_replicate
  generalize List.replicate 65560 (0 : UInt8) = buffer at hlen ⊢
  have hempty : (new 0x0001 (ByteArrayN.zero 12) buffer).totalSize = 20 := rfl
  have hroom : 65560 ≤ (new 0x0001 (ByteArrayN.zero 12) buffer).buffer.bytes.length := hlen.ge
  generalize new 0x0001 (ByteArrayN.zero 12) buffer = e at hempty hroom ⊢
  obtain ⟨hok, htotal, hstun⟩ := add_paddedSoftware hempty hroom
  refine ⟨[(e.add (.ordinary paddedSoftware)).1], (e.add (.ordinary paddedSoftware)).2,
    run_singleton add e _, ?_, htotal, hstun, ?_⟩
  · intro r hr
    rw [List.mem_singleton.1 hr]
    exact hok
  · rintro ⟨hexact, -⟩
    rw [hstun, htotal] at hexact
    cases hexact

end Encoder

end Stunxx
