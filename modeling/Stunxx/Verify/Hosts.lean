import Stunxx.Decoder
import Stunxx.Verify.EncoderInv

/-!
# The same message on every host

The header and three attribute classes go through the byte order of the host: their integers are
swapped on a little-endian host and copied as they lie in memory. Two hosts with the same `HMAC`
keep encoders with the same buffer, offset and flags (`SameWire`), whatever is called; only the
header they hold in network byte order differs as a number. Their decoders read the same objects.
-/

namespace Stunxx

open Overlay Machine Digits

/-! ## Integers as they lie in memory -/

section Memory

variable [Platform]

theorem image_load (bs : Bytes) : image bs.length (load bs) = bs := by
  unfold image load
  cases Platform.native
  · exact leBytes_leValue bs
  · exact beBytes_beValue bs

theorem load_lt (bs : Bytes) : load bs < 256 ^ bs.length := by
  unfold load
  cases Platform.native
  · exact leValue_lt bs
  · exact (leValue_lt bs.reverse).trans_eq (by rw [List.length_reverse])

/-- An integer that is loaded and converted is the one the bytes spell in network byte order. -/
theorem be64ToHost_load {bs : Bytes} (h : bs.length = 8) :
    be64ToHost (UInt64.ofNat (load bs)) = UInt64.ofNat (beValue bs) := by
  have hlt : load bs < 2 ^ 64 := (load_lt bs).trans_eq (by norm_num [h])
  have himage := image_hostToBe64 (be64ToHost (UInt64.ofNat (load bs)))
  have hswap : hostToBe64 (be64ToHost (UInt64.ofNat (load bs))) = UInt64.ofNat (load bs) :=
    be64ToHost_hostToBe64 _
  rw [hswap, UInt64.toNat_ofNat', Nat.mod_eq_of_lt hlt, ← h, image_load] at himage
  have hvalue := congrArg beValue himage
  rw [h, beValue_beBytes_of_lt (UInt64.toNat_lt _)] at hvalue
  rw [hvalue, UInt64.ofNat_toNat]

theorem be32ToHost_load {bs : Bytes} (h : bs.length = 4) :
    be32ToHost (UInt32.ofNat (load bs)) = UInt32.ofNat (beValue bs) := by
  have hlt : load bs < 2 ^ 32 := (load_lt bs).trans_eq (by norm_num [h])
  have himage := image_hostToBe32 (be32ToHost (UInt32.ofNat (load bs)))
  have hswap : hostToBe32 (be32ToHost (UInt32.ofNat (load bs))) = UInt32.ofNat (load bs) :=
    be32ToHost_hostToBe32 _
  rw [hswap, UInt32.toNat_ofNat', Nat.mod_eq_of_lt hlt, ← h, image_load] at himage
  have hvalue := congrArg beValue himage
  rw [h, beValue_beBytes_of_lt (UInt32.toNat_lt _)] at hvalue
  rw [hvalue, UInt32.ofNat_toNat]

/-- `decode` and `encode` of a tie-breaker, without the host. -/
theorem IceControlAttrT.decode_eq {T : StunAttrType} :
    (decode : Bytes → Option (IceControlAttrT T)) = fun buffer =>
      if buffer.length ≠ valueSize then none else some ⟨UInt64.ofNat (beValue buffer)⟩ := by
  funext buffer
  unfold decode
  split
  · rfl
  · next h =>
    exact congrArg (fun v => some (IceControlAttrT.mk v)) (be64ToHost_load (not_not.1 h))

theorem IceControlAttrT.encode_eq {T : StunAttrType} :
    (encode : IceControlAttrT T → Nat → Bool × List Store) = fun a size =>
      if size < attrHeaderSize + valueSize then (false, [])
      else
        (true, [memcpy 0 (writeHeader T.code (UInt16.ofNat valueSize)),
          memcpy attrHeaderSize (beBytes 8 a.tiebreaker.toNat)]) := by
  funext a size
  rw [encode, body, ← image_hostToBe64]
  rfl

theorem FingerprintAttr.decode_eq :
    FingerprintAttr.decode = fun buffer =>
      if buffer.length ≠ valueSize then none else some ⟨UInt32.ofNat (beValue buffer)⟩ := by
  funext buffer
  unfold decode
  split
  · rfl
  · next h =>
    exact congrArg (fun v => some (FingerprintAttr.mk v)) (be32ToHost_load (not_not.1 h))

theorem FingerprintAttr.encode_eq :
    FingerprintAttr.encode = fun a size =>
      if size < attrHeaderSize + valueSize then (false, [])
      else
        (true, [memcpy 0 (writeHeader StunAttrType.fingerprint.code (UInt16.ofNat valueSize)),
          memcpy attrHeaderSize (beBytes 4 a.value.toNat)]) := by
  funext a size
  rw [encode, body, ← image_hostToBe32]
  rfl

end Memory

/-! ## The classes of two hosts -/

/-- The concept of a class, on a host. -/
abbrev AttrClass.concept (host : Platform) (cls : AttrClass) : StunAttribute cls.Obj :=
  letI := host
  AttributeSpec.toStunAttribute

theorem IceControlAttrT.concept_eq (host other : Platform) (T : StunAttrType) :
    @instStunAttribute T host = @instStunAttribute T other := by
  have hencode : @encode T host = @encode T other :=
    (@encode_eq host T).trans (@encode_eq other T).symm
  have hdecode : @decode T host = @decode T other :=
    (@decode_eq host T).trans (@decode_eq other T).symm
  exact congrArg₂ (fun enc dec => StunAttribute.mk T (fun a => a.length.toNat) enc fun _ => dec)
    hencode hdecode

theorem FingerprintAttr.concept_eq (host other : Platform) :
    @instStunAttribute host = @instStunAttribute other := by
  have hencode : @encode host = @encode other := (@encode_eq host).trans (@encode_eq other).symm
  have hdecode : @decode host = @decode other := (@decode_eq host).trans (@decode_eq other).symm
  exact congrArg₂ (fun enc dec =>
    StunAttribute.mk .fingerprint (fun a => a.length.toNat) enc fun _ => dec) hencode hdecode

/-- **No class depends on the host.** -/
theorem AttrClass.concept_eq (host other : Platform) (cls : AttrClass) :
    cls.concept host = cls.concept other := by
  cases cls
  case iceControlled | iceControlling => exact IceControlAttrT.concept_eq host other _
  case fingerprint => exact FingerprintAttr.concept_eq host other
  all_goals rfl

/-! ## Encoders on two hosts -/

namespace Encoder

section Hosts

variable (host other : Platform)

/-- The same encoder on two hosts: its header is one in network byte order, on each host as a number
of that host. -/
inductive SameWire : Encoder → Encoder → Prop
  | intro (buffer : Memory) (type length : UInt16) (tid : TransactionId) (offset : Nat)
      (hasMessageIntegrity hasFingerprint : Bool) :
      SameWire
        ⟨buffer, @netHeader host type length tid, offset, hasMessageIntegrity, hasFingerprint⟩
        ⟨buffer, @netHeader other type length tid, offset, hasMessageIntegrity, hasFingerprint⟩

variable {host other} {e f : Encoder}

theorem sameWire_new (type : UInt16) (tid : TransactionId) (buffer : Bytes) :
    SameWire host other (@new host type tid buffer) (@new other type tid buffer) := by
  have hnew : ∀ host : Platform, @new host type tid buffer =
      ⟨{ bytes := buffer }, @netHeader host type 0 tid, stunHeaderSize, false, false⟩ := by
    intro host
    rw [netHeader, hostToBe16_zero]
    rfl
  rw [hnew, hnew]
  exact .intro _ _ _ _ _ _ _

/-- What writing a length leaves does not depend on the host, but for the number in the header. -/
theorem writeLength_netHeader [Platform] (buffer : Memory) (type length : UInt16)
    (tid : TransactionId) (offset : Nat) (mi fp : Bool) (n : UInt16) :
    writeLength ⟨buffer, netHeader type length tid, offset, mi, fp⟩ n =
      ⟨buffer.store 0 (StunHeader.wire ⟨type, n, magicCookie, tid⟩), netHeader type n tid, offset,
        mi, fp⟩ := by
  rw [← netHeader_bytes]
  rfl

theorem SameWire.writeLength (h : SameWire host other e f) (n : UInt16) :
    SameWire host other (@writeLength host e n) (@writeLength other f n) := by
  cases h
  rw [@writeLength_netHeader host, @writeLength_netHeader other]
  exact .intro _ _ _ _ _ _ _

theorem SameWire.addAttribute {α : Type} [StunAttribute α] (h : SameWire host other e f) (a : α) :
    (e.addAttribute a).1 = (f.addAttribute a).1 ∧
      SameWire host other (e.addAttribute a).2 (f.addAttribute a).2 := by
  obtain ⟨buffer, type, length, tid, offset, mi, fp⟩ := h
  unfold Encoder.addAttribute
  dsimp only
  split
  · exact ⟨rfl, .intro _ _ _ _ _ _ _⟩
  · cases (StunAttribute.encode a (attrHeaderSize + roundUp4 (StunAttribute.length a))).1
    · exact ⟨rfl, .intro _ _ _ _ _ _ _⟩
    · exact ⟨rfl, .intro _ _ _ _ _ _ _⟩

theorem SameWire.addMessageIntegrity (hhmac : host.hmac = other.hmac) {T : StunAttrType}
    (h : SameWire host other e f) (a : MessageIntegrityAttrT T) :
    (@addMessageIntegrity host T e a).1 = (@addMessageIntegrity other T f a).1 ∧
    (@addMessageIntegrity host T e a).2.1 = (@addMessageIntegrity other T f a).2.1 ∧
      SameWire host other (@addMessageIntegrity host T e a).2.2
        (@addMessageIntegrity other T f a).2.2 := by
  have hcompute : ∀ m, @MessageIntegrityAttrT.compute T host a m =
      @MessageIntegrityAttrT.compute T other a m := by
    intro m
    unfold MessageIntegrityAttrT.compute
    rw [hhmac]
  obtain ⟨buffer, type, length, tid, offset, mi, fp⟩ := h
  unfold Encoder.addMessageIntegrity
  simp only [@writeLength_netHeader host, @writeLength_netHeader other, hcompute, stunSize]
  split
  · exact ⟨rfl, rfl, .intro _ _ _ _ _ _ _⟩
  · split
    · exact ⟨rfl, rfl, .intro _ _ _ _ _ _ _⟩
    · split
      · exact ⟨rfl, rfl, .intro _ _ _ _ _ _ _⟩
      · exact ⟨rfl, rfl, .intro _ _ _ _ _ _ _⟩

theorem SameWire.addFingerprint (h : SameWire host other e f) :
    (@addFingerprint host e).1 = (@addFingerprint other f).1 ∧
      SameWire host other (@addFingerprint host e).2 (@addFingerprint other f).2 := by
  have hencode : @FingerprintAttr.encode host = @FingerprintAttr.encode other :=
    (@FingerprintAttr.encode_eq host).trans (@FingerprintAttr.encode_eq other).symm
  obtain ⟨buffer, type, length, tid, offset, mi, fp⟩ := h
  unfold Encoder.addFingerprint
  simp only [@writeLength_netHeader host, @writeLength_netHeader other, hencode, stunSize]
  split
  · exact ⟨rfl, .intro _ _ _ _ _ _ _⟩
  · split
    · exact ⟨rfl, .intro _ _ _ _ _ _ _⟩
    · split
      · exact ⟨rfl, .intro _ _ _ _ _ _ _⟩
      · exact ⟨rfl, .intro _ _ _ _ _ _ _⟩

theorem SameWire.add (hhmac : host.hmac = other.hmac) (h : SameWire host other e f) (c : AddCall) :
    (@add host e c).1 = (@add other f c).1 ∧
      SameWire host other (@add host e c).2 (@add other f c).2 := by
  cases c with
  | ordinary a =>
    have hconcept := AttrClass.concept_eq host other a.cls
    have hadd := @SameWire.addAttribute host other e f _ (a.cls.concept host) h a.obj
    have hsame : @Encoder.addAttribute _ (a.cls.concept host) f a.obj =
        @Encoder.addAttribute _ (a.cls.concept other) f a.obj := by rw [hconcept]
    rw [hsame] at hadd
    exact ⟨congrArg (fun ok : Bool => ({ ok } : AddResult)) hadd.1, hadd.2⟩
  | integrity kind a =>
    obtain ⟨hok, hattr, hnext⟩ := h.addMessageIntegrity hhmac a
    refine ⟨?_, hnext⟩
    exact congrArg₂ (fun ok a => ({ ok, attr := some ⟨kind, a⟩ } : AddResult)) hok hattr
  | fingerprint =>
    obtain ⟨hok, hnext⟩ := h.addFingerprint
    exact ⟨congrArg (fun ok : Bool => ({ ok } : AddResult)) hok, hnext⟩

theorem SameWire.finalize (h : SameWire host other e f) :
    SameWire host other (@finalize host e) (@finalize other f) := by
  have hsame := h
  obtain ⟨buffer, type, length, tid, offset, mi, fp⟩ := h
  unfold Encoder.finalize
  split
  · exact hsame.writeLength _
  · exact hsame

theorem SameWire.step (hhmac : host.hmac = other.hmac) (h : SameWire host other e f) (call : Call) :
    (@step host e call).1 = (@step other f call).1 ∧
      SameWire host other (@step host e call).2 (@step other f call).2 := by
  cases call with
  | add c => exact h.add hhmac c
  | finalize => exact ⟨rfl, h.finalize⟩

/-- The calls of a user on a host. -/
def runOn (host : Platform) (type : UInt16) (tid : TransactionId) (buffer : Bytes)
    (calls : List Call) : List AddResult × Encoder :=
  letI := host
  run step (new type tid buffer) calls

/-- **Hosts of either byte order write the same bytes and read the same objects**: whatever is
called, the calls return the same and leave the same in the buffer, and every class finds the same
in every decoded message. -/
theorem hosts_agree (hhmac : host.hmac = other.hmac) (type : UInt16) (tid : TransactionId)
    (buffer : Bytes) (calls : List Call) :
    (runOn host type tid buffer calls).1 = (runOn other type tid buffer calls).1 ∧
    (runOn host type tid buffer calls).2.buffer = (runOn other type tid buffer calls).2.buffer ∧
    (runOn host type tid buffer calls).2.totalSize =
      (runOn other type tid buffer calls).2.totalSize ∧
    ∀ (d : Decoder) (c : AttrClass),
      @Decoder.getAttributes c.Obj (c.concept host) d =
          @Decoder.getAttributes c.Obj (c.concept other) d ∧
        @Decoder.getAttribute c.Obj (c.concept host) d =
          @Decoder.getAttribute c.Obj (c.concept other) d := by
  have hstart : SameWire host other (@new host type tid buffer) (@new other type tid buffer) :=
    sameWire_new type tid buffer
  obtain ⟨hresults, hlast⟩ := run_simulated (@step host) (@step other) calls
    (fun _ _ call _ h => SameWire.step hhmac h call) hstart
  have hbuffer : ∀ {e f : Encoder}, SameWire host other e f →
      e.buffer = f.buffer ∧ e.totalSize = f.totalSize := by
    rintro e f ⟨⟩
    exact ⟨rfl, rfl⟩
  refine ⟨hresults, (hbuffer hlast).1, (hbuffer hlast).2, fun d c => ?_⟩
  rw [AttrClass.concept_eq host other c]
  exact ⟨rfl, rfl⟩

end Hosts

/-- A signed message with a tie-breaker, on a little- and on a big-endian host. -/
theorem hosts_agree_iceControlled :
    let digest : Bytes := List.replicate 20 0x5A
    let little : Platform := ⟨.little, fun _ _ _ => some digest⟩
    let big : Platform := ⟨.big, fun _ _ _ => some digest⟩
    let calls : List Call := [.add (.ordinary ⟨.iceControlled, rfl, ⟨0x0102030405060708⟩⟩),
      .add (.integrity .sha1 (.ofKey [0x6B])), .add .fingerprint]
    (runOn little 0x0001 (ByteArrayN.zero 12) (List.replicate 64 0) calls).2.buffer =
      (runOn big 0x0001 (ByteArrayN.zero 12) (List.replicate 64 0) calls).2.buffer := by
  intro digest little big calls
  have hhmac : little.hmac = big.hmac := rfl
  exact (hosts_agree hhmac 0x0001 (ByteArrayN.zero 12) (List.replicate 64 0) calls).2.1

end Encoder

end Stunxx
