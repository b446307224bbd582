import Stunxx.Verify.EncoderInv

/-!
# What successful adds leave in the buffer

After a run of adds that all succeeded, the message behind the header is the records of the calls,
end to end (`Sent.message`), and the length in the header is that of the message when the last call
sealed it and too small when a seal is not last. `finalize` writes the length of a message that is
not sealed. So the finished message is in the grammar, with these records, exactly when nothing
sealed it or the last call did (`Sent.grammar`).
-/

namespace Stunxx

open Overlay Machine Tlv Digits

namespace AddCall

/-- A call that writes a length into the header. -/
def isSeal : AddCall → Bool
  | ordinary _ => false
  | integrity .. | fingerprint => true

variable [Platform]

def type : AddCall → StunAttrType
  | ordinary a => a.cls.type
  | integrity kind _ => kind.type
  | fingerprint => .fingerprint

/-- The length in the header of the attribute that a call adds. -/
def length : AddCall → Nat
  | ordinary a => StunAttribute.length a.obj
  | integrity kind _ => kind.expectedSize
  | fingerprint => FingerprintAttr.valueSize

end AddCall

/-! ## The records of a history -/

section Records

variable [Platform]

/-- The value a successful call put on the wire. One that is too long for 16 bits is not pinned
down. -/
inductive ValueOf : AddCall × AddResult → Bytes → Prop
  | ordinary {a : Attr} {bs : Bytes}
      (h : a.valueSize < 65536 → bs = AttributeSpec.wireValue a.obj) :
      ValueOf (.ordinary a, { ok := true }) bs
  | integrity {kind : IntegrityKind} {a : kind.Obj} {digest : Bytes}
      (h : digest.length = kind.expectedSize) :
      ValueOf (.integrity kind a,
        { ok := true, attr := some ⟨kind, { a with hmac := digest }⟩ }) digest
  | fingerprint (fp : FingerprintAttr) : ValueOf (.fingerprint, { ok := true }) fp.wireValue

/-- The record of a successful call. -/
structure Carries (x : AddCall × AddResult) (r : WireAttr) : Prop where
  full : Full stunFormat r
  tag : r.tag = x.1.type.code
  length : r.value.length = x.1.length
  value : ValueOf x r.value

/-- The message behind the header is the records of the history, unless it is longer than a length
field can say. -/
def Holds (hist : List (AddCall × AddResult)) (e : Encoder) : Prop :=
  e.offset ≤ 20 + 65535 → ∃ rs, List.Forall₂ Carries hist rs ∧
    slice e.buffer.bytes 20 (e.offset - 20) = rs.flatMap (wire stunFormat)

variable {hist : List (AddCall × AddResult)} {e : Encoder}

theorem exists_carries {rs : List WireAttr} (hrs : List.Forall₂ Carries hist rs) :
    ∀ r ∈ rs, ∃ x ∈ hist, Carries x r := by
  induction hrs with
  | nil => exact fun r hr => absurd hr List.not_mem_nil
  | @cons x _ _ _ hx _ ih =>
    intro r hr
    rcases List.mem_cons.1 hr with rfl | hr
    · exact ⟨x, List.mem_cons_self, hx⟩
    · obtain ⟨y, hy, hcarries⟩ := ih r hr
      exact ⟨y, List.mem_cons_of_mem x hy, hcarries⟩

theorem full_of_carries {rs : List WireAttr} (hrs : List.Forall₂ Carries hist rs) :
    ∀ r ∈ rs, Full stunFormat r := by
  intro r hr
  obtain ⟨x, -, hx⟩ := exists_carries hrs r hr
  exact hx.full

/-- The records of a history and one more call. -/
theorem carries_concat {x : AddCall × AddResult} {rs : List WireAttr}
    (hrs : List.Forall₂ Carries (hist ++ [x]) rs) :
    ∃ rs' r, rs = rs' ++ [r] ∧ List.Forall₂ Carries hist rs' ∧ Carries x r := by
  induction hist generalizing rs with
  | nil =>
    cases hrs with
    | cons hx hnil =>
      cases hnil
      exact ⟨[], _, rfl, .nil, hx⟩
  | cons y hist ih =>
    cases hrs with
    | cons hy hrest =>
      obtain ⟨rs', r, rfl, hrs', hr⟩ := ih hrest
      exact ⟨_ :: rs', r, rfl, .cons hy hrs', hr⟩

theorem Holds.append {α : Type} [AttributeSpec α] (h : Holds hist e) (hoff : 20 ≤ e.offset) {a : α}
    (hready : AttributeSpec.ready a = true)
    (hfit : e.offset + Encoder.padded a ≤ e.buffer.bytes.length) {x : AddCall × AddResult}
    (htype : x.1.type = StunAttribute.type α) (hlen : x.1.length = StunAttribute.length a)
    (hval : ∀ bs, (AttributeSpec.valueSize a < 65536 → bs = AttributeSpec.wireValue a) →
      ValueOf x bs) : Holds (hist ++ [x]) (e.append a) := by
  intro hbound
  rw [Encoder.append_offset] at hbound
  obtain ⟨rs, hrs, hslice⟩ := h (by omega)
  have hle := le_roundUp4 (StunAttribute.length a)
  obtain ⟨r, hfull, htag, hsize, hvalue, hwire⟩ := Encoder.exists_record e a hready hfit (by
    rw [Encoder.padded, attrHeaderSize] at hbound
    omega)
  have hcarries : Carries x r := ⟨hfull, by rw [htag, htype], by rw [hsize, hlen], hval _ hvalue⟩
  refine ⟨rs ++ [r], List.rel_append hrs (.cons hcarries .nil), ?_⟩
  have hext := Encoder.extends_append e a
  have hend : e.offset + Encoder.padded a - 20 = e.offset - 20 + Encoder.padded a := by omega
  rw [Encoder.append_offset, hend, slice_add, hext.slice_eq (Nat.le_refl _) (by omega), hslice,
    Nat.add_sub_cancel' hoff, hwire, List.flatMap_append, List.flatMap_singleton]

theorem Holds.writeLength (h : Holds hist e) (hoff : 20 ≤ e.offset) (n : UInt16) :
    Holds hist (e.writeLength n) := by
  intro hbound
  obtain ⟨rs, hrs, hslice⟩ := h hbound
  have hext := Encoder.extends_writeLength e n
  rw [Encoder.writeLength_offset, hext.slice_eq (Nat.le_refl _) (by omega)]
  exact ⟨rs, hrs, hslice⟩

/-- An attribute appended under a header that announces it. -/
theorem Holds.announce_append {α : Type} [AttributeSpec α] (h : Holds hist e) (hoff : 20 ≤ e.offset)
    {a : α} {n : Nat} (hpad : Encoder.padded a = n) (hready : AttributeSpec.ready a = true)
    (hroom : e.offset + n ≤ e.buffer.bytes.length) {x : AddCall × AddResult}
    (htype : x.1.type = StunAttribute.type α) (hlen : x.1.length = StunAttribute.length a)
    (hval : ∀ bs, (AttributeSpec.valueSize a < 65536 → bs = AttributeSpec.wireValue a) →
      ValueOf x bs) : Holds (hist ++ [x]) ((e.announce n).append a) := by
  have hann := h.writeLength hoff (UInt16.ofNat (e.stunSize.toNat + n))
  refine hann.append hoff hready ?_ htype hlen hval
  rw [hpad]
  exact hroom.trans_eq (Encoder.length_announce e n).symm

end Records

/-! ## The invariant of successful adds -/

/-- The last call of a history sealed the message. -/
def EndsSealed (hist : List (AddCall × AddResult)) : Prop :=
  ∃ x, hist.getLast? = some x ∧ x.1.isSeal = true

theorem endsSealed_concat {hist : List (AddCall × AddResult)} {x : AddCall × AddResult} :
    EndsSealed (hist ++ [x]) ↔ x.1.isSeal = true := by
  simp [EndsSealed]

theorem exists_isSeal_concat {hist : List (AddCall × AddResult)} {x : AddCall × AddResult} :
    (∃ y ∈ hist ++ [x], y.1.isSeal = true) ↔
      (∃ y ∈ hist, y.1.isSeal = true) ∨ x.1.isSeal = true := by
  simp only [List.mem_append, List.mem_singleton, or_and_right, exists_or, exists_eq_left]

section Invariant

variable [Platform]

/-- The encoder after a history of adds that all succeeded. -/
structure Sent (type : UInt16) (tid : TransactionId) (size : Nat)
    (hist : List (AddCall × AddResult)) (e : Encoder) : Prop extends
    Encoder.Inv type tid size e where
  message : Holds hist e
  sealed_iff : e.Sealed ↔ ∃ x ∈ hist, x.1.isSeal = true
  length : e.Sealed → ∃ n, e.stunHeader.msgLength = hostToBe16 (UInt16.ofNat n) ∧
    n ≤ e.offset - 20 ∧ (n = e.offset - 20 ↔ EndsSealed hist)
  crc : ∀ x, hist.getLast? = some x → x.1 = .fingerprint →
    slice e.buffer.bytes (e.offset - 4) 4 =
      (FingerprintAttr.compute (e.buffer.bytes.take (e.offset - 8))).wireValue

variable {type : UInt16} {tid : TransactionId} {size : Nat}
  {hist : List (AddCall × AddResult)} {e : Encoder}

theorem sent_new (type : UInt16) (tid : TransactionId) (buffer : Bytes) :
    Sent type tid buffer.length [] (Encoder.new type tid buffer) where
  toInv := Encoder.inv_new type tid buffer
  message _ := ⟨[], .nil, rfl⟩
  sealed_iff := by simp [Encoder.Sealed, Encoder.new]
  length h := by rcases h with h | h <;> cases h
  crc x hx := by cases hx

/-- An ordinary attribute leaves a sealed message with a length that is too small. -/
theorem Sent.ordinary (h : Sent type tid size hist e) {a : Attr}
    (hroom : e.offset + Encoder.padded a.obj ≤ e.buffer.bytes.length) :
    Sent type tid size (hist ++ [(.ordinary a, { ok := true })]) (e.append a.obj) where
  toInv := h.toInv.append a.obj (by rwa [← h.length_eq])
  message := h.message.append h.le_offset a.ready hroom rfl rfl fun bs hbs => .ordinary hbs
  sealed_iff := by
    rw [exists_isSeal_concat, ← h.sealed_iff]
    exact ⟨.inl, fun hs => hs.resolve_right fun hseal => by cases hseal⟩
  length hs := by
    obtain ⟨n, hn, hle, -⟩ := h.length hs
    have hoff := h.le_offset
    have hpos : 4 ≤ Encoder.padded a.obj := Nat.le_add_right _ _
    refine ⟨n, hn, ?_, ?_, ?_⟩
    · rw [Encoder.append_offset]
      omega
    · intro heq
      rw [Encoder.append_offset] at heq
      omega
    · intro hends
      cases endsSealed_concat.1 hends
  crc x hx hfp := by
    rw [List.getLast?_concat, Option.some_inj] at hx
    rw [← hx] at hfp
    cases hfp

/-- A seal announces the length that the message then has. -/
theorem Sent.length_of_announce (h : Sent type tid size hist e) {x : AddCall × AddResult}
    (hseal : x.1.isSeal = true) {f : Encoder} {n : Nat} (hoffset : f.offset = e.offset + n)
    (hheader : f.stunHeader = (e.announce n).stunHeader) :
    ∃ m, f.stunHeader.msgLength = hostToBe16 (UInt16.ofNat m) ∧ m ≤ f.offset - 20 ∧
      (m = f.offset - 20 ↔ EndsSealed (hist ++ [x])) := by
  have hoff := h.le_offset
  have heq : e.offset - 20 + n = f.offset - 20 := by omega
  refine ⟨e.offset - 20 + n, ?_, heq.le, fun _ => endsSealed_concat.2 hseal, fun _ => heq⟩
  rw [hheader, Encoder.announce_eq]
  rfl

theorem Sent.integrity (h : Sent type tid size hist e) {kind : IntegrityKind} {a : kind.Obj}
    {digest : Bytes} (hroom : e.offset + Encoder.sealSize kind.type ≤ e.buffer.bytes.length)
    (hsize : digest.length = kind.expectedSize) :
    Sent type tid size
      (hist ++
        [(.integrity kind a, { ok := true, attr := some ⟨kind, { a with hmac := digest }⟩ })])
      (e.sign kind.type digest) where
  toInv := (h.toInv.sign hsize (by rwa [← h.length_eq])).1
  message := by
    have hcases : kind.expectedSize = 20 ∨ kind.expectedSize = 32 :=
      MessageIntegrityAttrT.expectedSize_cases kind.type
    have hlen := MessageIntegrityAttrT.toNat_length (T := kind.type) (a := .ofHmac digest) hsize
    have happ := h.message.announce_append h.le_offset (Encoder.padded_of_hmac hsize)
      (beq_iff_eq.2 hsize) hroom
      (x := (.integrity kind a, { ok := true, attr := some ⟨kind, { a with hmac := digest }⟩ }))
      rfl hlen.symm fun bs hbs => by
        obtain rfl : bs = digest := hbs (hsize.trans_lt (by omega))
        exact .integrity hsize
    intro hbound
    exact happ hbound
  sealed_iff := by
    rw [exists_isSeal_concat]
    exact ⟨fun _ => .inr rfl, fun _ => .inl rfl⟩
  length _ := by
    have hpad := Encoder.padded_of_hmac (a := .ofHmac (T := kind.type) digest) hsize
    exact h.length_of_announce rfl (congrArg (e.offset + ·) hpad) rfl
  crc x hx hfp := by
    rw [List.getLast?_concat, Option.some_inj] at hx
    rw [← hx] at hfp
    cases hfp

theorem Sent.fingerprint (h : Sent type tid size hist e)
    (hroom : e.offset + Encoder.fingerprintSize ≤ e.buffer.bytes.length) :
    Sent type tid size (hist ++ [(.fingerprint, { ok := true })]) e.stamp where
  toInv := (h.toInv.stamp (by rwa [← h.length_eq])).1
  message := by
    have hsize := Encoder.valueSize_fingerprint e.fingerprint
    refine h.message.announce_append h.le_offset (Encoder.padded_fingerprint e.fingerprint) rfl
      hroom rfl rfl ?_
    intro bs hbs
    obtain rfl : bs = e.fingerprint.wireValue := hbs (hsize.trans_lt (by decide))
    exact .fingerprint _
  sealed_iff := by
    rw [exists_isSeal_concat]
    exact ⟨fun _ => .inr rfl, fun _ => .inr rfl⟩
  length _ := by
    have hpad := Encoder.padded_fingerprint e.fingerprint
    exact h.length_of_announce rfl (congrArg (e.offset + ·) hpad) rfl
  crc _ _ _ := by
    have hpad := Encoder.padded_fingerprint e.fingerprint
    have hsize := Encoder.valueSize_fingerprint e.fingerprint
    have hend : e.stamp.offset = e.offset + 8 := congrArg (e.offset + ·) hpad
    have hfit : e.offset + Encoder.padded e.fingerprint ≤
        (e.announce Encoder.fingerprintSize).buffer.bytes.length := by
      rw [hpad, Encoder.length_announce]
      exact hroom
    have hvalue := Encoder.slice_append_value (e.announce Encoder.fingerprintSize) e.fingerprint rfl
      hfit (hsize.trans_lt (by decide))
    have htake := Encoder.take_append (e.announce Encoder.fingerprintSize) e.fingerprint
      (Nat.le_refl e.offset)
    have hplace : e.stamp.offset - 4 = e.offset + 4 := by omega
    rw [hsize] at hvalue
    rw [hplace, hend, Nat.add_sub_cancel]
    refine hvalue.trans ?_
    exact congrArg (fun m => (FingerprintAttr.compute m).wireValue) htake.symm

theorem Sent.outcome (h : Sent type tid size hist e) {c : AddCall} {r : AddResult} {f : Encoder}
    (hout : Encoder.Outcome e c r f) (hok : r.ok = true) :
    Sent type tid size (hist ++ [(c, r)]) f := by
  cases hout with
  | refused => cases hok
  | announced => cases hok
  | ordinary hroom => exact h.ordinary hroom
  | integrity hroom _ hsize => exact h.integrity hroom hsize
  | fingerprint hroom => exact h.fingerprint hroom

/-- A run of adds that all succeed. -/
theorem sent_run (type : UInt16) (tid : TransactionId) (buffer : Bytes) {calls : List AddCall}
    (hok : ∀ r ∈ (run Encoder.add (Encoder.new type tid buffer) calls).1, r.ok = true) :
    Sent type tid buffer.length (history Encoder.add (Encoder.new type tid buffer) calls)
      (run Encoder.add (Encoder.new type tid buffer) calls).2 :=
  run_history Encoder.add (fun _ e c h hok => h.outcome (Encoder.add_outcome e c) hok)
    (sent_new type tid buffer) hok

/-! ## The finished message -/

/-- Nothing seals the message, or the last call does. -/
def SealsLast (calls : List AddCall) : Prop :=
  (∀ c ∈ calls, c.isSeal = false) ∨ ∃ c, calls.getLast? = some c ∧ c.isSeal = true

theorem Sent.sealsLast_iff (h : Sent type tid size hist e) :
    SealsLast (hist.map Prod.fst) ↔ ¬e.Sealed ∨ EndsSealed hist := by
  have hopen : (∀ c ∈ hist.map Prod.fst, c.isSeal = false) ↔ ¬e.Sealed := by
    rw [h.sealed_iff]
    simp only [List.forall_mem_map, not_exists, not_and, Bool.not_eq_true]
  have hlast : (∃ c, (hist.map Prod.fst).getLast? = some c ∧ c.isSeal = true) ↔
      EndsSealed hist := by
    simp [EndsSealed, List.getLast?_map]
  rw [SealsLast, hopen, hlast]

/-- The header of a finished message that nothing sealed, or that the last call sealed. -/
theorem Sent.finalize_header (h : Sent type tid size hist e) (hsize : 20 ≤ size)
    (hlast : ¬e.Sealed ∨ EndsSealed hist) :
    e.finalize.buffer.bytes.take 20 =
      StunHeader.wire ⟨type, UInt16.ofNat (e.offset - 20), magicCookie, tid⟩ := by
  obtain ⟨length, hlength⟩ := h.header
  rw [← netHeader_bytes]
  by_cases hsealed : e.Sealed
  · obtain ⟨n, hn, -, hends⟩ := h.length hsealed
    rw [hends.2 (hlast.resolve_left (not_not.2 hsealed)), hlength] at hn
    have hsame : length = UInt16.ofNat (e.offset - 20) := hostToBe16_inj hn
    rw [Encoder.finalize_of_sealed hsealed, h.written hsealed, hlength, hsame]
  · have hwritten := Encoder.headerWritten_writeLength (h.toInv.header_room hsize) e.stunSize
    rw [Encoder.finalize_of_not_sealed hsealed, hwritten, Encoder.writeLength, hlength]
    rfl

/-- A finished message whose last seal is followed by other attributes has a length field that does
not count them. -/
theorem Sent.finalize_stale (h : Sent type tid size hist e) (hbound : e.offset - 20 ≤ 65535)
    (hsealed : e.Sealed) (hlast : ¬EndsSealed hist) :
    slice e.finalize.buffer.bytes 2 2 ≠ beBytes 2 (e.offset - 20) := by
  obtain ⟨length, hlength⟩ := h.header
  obtain ⟨n, hn, hle, hends⟩ := h.length hsealed
  have hlt : n < e.offset - 20 := lt_of_le_of_ne hle fun heq => hlast (hends.1 heq)
  rw [hlength] at hn
  have hsame : length = UInt16.ofNat n := hostToBe16_inj hn
  have htake : e.buffer.bytes.take 20 = StunHeader.wire ⟨type, length, magicCookie, tid⟩ := by
    rw [h.written hsealed, hlength, netHeader_bytes]
  rw [Encoder.finalize_of_sealed hsealed, (slice_header htake).1, hsame, writeBe16_ofNat]
  intro heq
  have hvalues := beBytes_inj (by omega) (by omega) heq
  omega

/-- Whatever its header says, the bytes behind it are the records of the calls. -/
theorem Sent.records (h : Sent type tid size hist e) (hbound : e.offset - 20 ≤ 65535) :
    ∃ rs, List.Forall₂ Carries hist rs ∧
      slice e.finalize.buffer.bytes 20 (e.offset - 20) = rs.flatMap (wire stunFormat) := by
  have hoff := h.le_offset
  obtain ⟨rs, hrs, hslice⟩ := h.message (by omega)
  refine ⟨rs, hrs, ?_⟩
  rw [(Encoder.extends_finalize e).slice_eq (Nat.le_refl _) (by omega), hslice]

/-- **The finished message is in the grammar**, with the records of the calls. -/
theorem Sent.grammar (h : Sent type tid size hist e) (hsize : 20 ≤ size)
    (hbound : e.offset - 20 ≤ 65535) (hlast : ¬e.Sealed ∨ EndsSealed hist) {rs : List WireAttr}
    (hrs : List.Forall₂ Carries hist rs)
    (hbytes : slice e.finalize.buffer.bytes 20 (e.offset - 20) = rs.flatMap (wire stunFormat)) :
    Grammar (e.finalize.buffer.bytes.take e.offset)
      ⟨type, UInt16.ofNat (e.offset - 20), magicCookie, tid⟩ rs := by
  have hlen := h.toInv.finalize.length_eq
  have hle := h.offset_le
  rw [take_eq_append_slice _ h.le_offset, h.finalize_header hsize hlast, hbytes]
  refine Grammar.of_wire rfl (full_of_carries hrs) ?_
  rw [← hbytes, length_slice_of_le (by omega), UInt16.toNat_ofNat', Nat.mod_eq_of_lt (by omega)]

end Invariant

end Stunxx
