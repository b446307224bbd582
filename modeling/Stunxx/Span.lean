import Stunxx.Lib.Tlv
import Stunxx.Stun

/-!
# Spans, memory and the attribute concept

An attribute encoder writes through raw pointers into a span and never reads it, so its effect is
the list of stores it issues. `StunAttribute` is the concept the encoder and the decoder are
templates over. `AttributeSpec` collects what is proved once for each attribute class: the shape
of `encode`, the sizes its check compares, the bytes a value has on the wire and how `decode`
reads them back. Everything above works from these laws and never unfolds a class.

`Memory` is the caller's buffer. A store past its end is undefined in C++; the model drops the
bytes and records their indices in `stray`.
-/

namespace Stunxx

open Overlay

/-! ## Stores -/

/-- Bytes stored through a span, `dst` counted from the start of the span. -/
abbrev Store := Patch UInt8

def memcpy (dst : Nat) (src : Bytes) : Store := ⟨dst, src⟩

def memset (dst : Nat) (value : UInt8) (n : Nat) : Store := ⟨dst, List.replicate n value⟩

@[simp] theorem memcpy_dst (dst : Nat) (src : Bytes) : (memcpy dst src).dst = dst := rfl

@[simp] theorem memcpy_items (dst : Nat) (src : Bytes) : (memcpy dst src).items = src := rfl

@[simp] theorem memset_dst (dst : Nat) (value : UInt8) (n : Nat) :
    (memset dst value n).dst = dst := rfl

@[simp] theorem memset_items (dst : Nat) (value : UInt8) (n : Nat) :
    (memset dst value n).items = List.replicate n value := rfl

/-- A zeroed block written over without gaps from its `i`-th byte on. -/
theorem patch_memset (xs : Bytes) (base : Nat) {k n i : Nat} {ps : List Store}
    (hps : Contiguous (k + i) ps) (hn : i + (ps.flatMap Patch.items).length ≤ n) :
    patch xs base (memset k 0 n :: ps) =
      overlay xs (base + k) (List.replicate i 0 ++ ps.flatMap Patch.items ++
        List.replicate (n - (i + (ps.flatMap Patch.items).length)) 0) := by
  have hplace : base + (k + i) - (base + k) = i := by omega
  rw [patch_cons, memset_dst, memset_items, patch_of_contiguous _ _ hps,
    overlay_overlay xs (by omega) (by rw [List.length_replicate]; omega), hplace,
    overlay_replicate 0 hn]

/-- The caller's buffer and the indices past its end that were stored to. -/
@[ext] structure Memory where
  bytes : Bytes
  stray : List Nat := []
deriving DecidableEq

namespace Memory

/-- Store `src` at index `dst`. -/
def store (m : Memory) (dst : Nat) (src : Bytes) : Memory where
  bytes := overlay m.bytes dst src
  stray := m.stray ++ (List.range' dst src.length).filter (m.bytes.length ≤ ·)

/-- The stores an encoder issued through a span that starts at `base`. -/
def storeAll (m : Memory) (base : Nat) (stores : List Store) : Memory :=
  stores.foldl (fun acc s => acc.store (base + s.dst) s.items) m

@[simp] theorem store_bytes (m : Memory) (dst : Nat) (src : Bytes) :
    (m.store dst src).bytes = overlay m.bytes dst src := rfl

@[simp] theorem storeAll_nil (m : Memory) (base : Nat) : m.storeAll base [] = m := rfl

@[simp] theorem storeAll_cons (m : Memory) (base : Nat) (s : Store) (ss : List Store) :
    m.storeAll base (s :: ss) = (m.store (base + s.dst) s.items).storeAll base ss := rfl

@[simp] theorem storeAll_bytes (m : Memory) (base : Nat) (stores : List Store) :
    (m.storeAll base stores).bytes = patch m.bytes base stores := by
  induction stores generalizing m with
  | nil => rfl
  | cons s ss ih => rw [storeAll_cons, ih, store_bytes, patch_cons]

/-- A store inside the buffer leaves no stray byte. -/
theorem store_stray {m : Memory} {dst : Nat} {src : Bytes} (h : dst + src.length ≤ m.bytes.length) :
    (m.store dst src).stray = m.stray := by
  have hnone : (List.range' dst src.length).filter (m.bytes.length ≤ ·) = [] := by
    simp only [List.filter_eq_nil_iff, List.mem_range'_1, decide_eq_true_eq]
    omega
  rw [store, hnone, List.append_nil]

/-- Neither do stores that are all inside it. -/
theorem storeAll_stray {m : Memory} {base : Nat} {stores : List Store}
    (h : ∀ s ∈ stores, base + s.dst + s.items.length ≤ m.bytes.length) :
    (m.storeAll base stores).stray = m.stray := by
  induction stores generalizing m with
  | nil => rfl
  | cons s ss ih =>
    have hlen : (m.store (base + s.dst) s.items).bytes.length = m.bytes.length :=
      length_overlay _ _ _
    have hrest := ih (m := m.store (base + s.dst) s.items) fun t ht => by
      rw [hlen]
      exact h t (List.mem_cons_of_mem s ht)
    rw [storeAll_cons, hrest, store_stray (h s List.mem_cons_self)]

theorem store_store {m : Memory} {dst : Nat} {src src' : Bytes} (hlen : src'.length = src.length)
    (h : dst + src.length ≤ m.bytes.length) :
    (m.store dst src).store dst src' = m.store dst src' := by
  have h' : dst + src'.length ≤ (m.store dst src).bytes.length := by
    rw [store_bytes, length_overlay]
    omega
  ext1
  · exact overlay_overwrite m.bytes dst hlen
  · rw [store_stray h', store_stray h, store_stray (by omega)]

/-- A store at the front of the buffer and stores behind it commute. -/
theorem store_storeAll {m : Memory} {base : Nat} {src : Bytes} (stores : List Store)
    (h : src.length ≤ base) (hfit : src.length ≤ m.bytes.length) :
    (m.store 0 src).storeAll base stores = (m.storeAll base stores).store 0 src := by
  induction stores generalizing m with
  | nil => rfl
  | cons s ss ih =>
    have hcomm : (m.store 0 src).store (base + s.dst) s.items =
        (m.store (base + s.dst) s.items).store 0 src := by
      have hlen : src.length ≤ (m.store (base + s.dst) s.items).bytes.length := by
        rw [store_bytes, length_overlay]
        exact hfit
      ext1
      · exact overlay_comm m.bytes (by omega)
      · have hstray : (m.store 0 src).stray = m.stray := store_stray (by omega)
        rw [store_stray (m := m.store (base + s.dst) s.items) (by omega)]
        simp only [store, length_overlay] at hstray ⊢
        rw [hstray]
    rw [storeAll_cons, storeAll_cons, hcomm, ih]
    rw [store_bytes, length_overlay]
    exact hfit

end Memory

/-! ## The attribute concept -/

/-- `concept StunAttribute`, with the class's `decode`. `length` is the value of `length()` where
it is used, as a `size_t`. `encode` maps the size of its span to what it returns and the stores it
issues. `decode` is given the transaction ID; only the XOR address classes have an overload that
takes it, the others ignore it. -/
class StunAttribute (α : Type) where
  type : StunAttrType
  length : α → Nat
  encode : α → Nat → Bool × List Store
  decode : TransactionId → Bytes → Option α

/-- The value bytes that `encode` leaves behind the header when it writes over `xs`. -/
def StunAttribute.writtenValue {α : Type} [StunAttribute α] (a : α) (xs : Bytes) : Bytes :=
  slice (patch xs 0 (encode a xs.length).2) attrHeaderSize (length a)

/-- The zero bytes behind a value of `n` bytes. -/
def padding (n : Nat) : Bytes := List.replicate (roundUp4 n - n) 0

@[simp] theorem length_padding (n : Nat) : (padding n).length = roundUp4 n - n :=
  List.length_replicate

/-- The laws of an attribute class.

* `ready` holds of the objects `encode` does not refuse outright (a MESSAGE-INTEGRITY whose HMAC
  was computed), `room` is the span size its check asks for, `body` the stores behind the header.
* `valueSize` is the size of the value before any cast to 16 bits, and `truncates` says that
  `length()` casts a size that does not fit.
* `wireValue` is the value on the wire, and `InLimits` is what the class's own `decode` checks. -/
class AttributeSpec (α : Type) extends StunAttribute α where
  ready : α → Bool
  room : α → Nat
  body : α → List Store
  valueSize : α → Nat
  truncates : α → Prop
  wireValue : α → Bytes
  InLimits : TransactionId → α → Prop
  encode_eq : ∀ a size, encode a size =
    if ready a = true ∧ room a ≤ size then
      (true, memcpy 0 (writeHeader type.code (UInt16.ofNat (length a))) :: body a)
    else (false, [])
  le_dst_body : ∀ a, ∀ s ∈ body a, attrHeaderSize ≤ s.dst
  body_reach : ∀ a, ready a = true → ¬truncates a →
    ∀ s ∈ body a, s.dst + s.items.length ≤ attrHeaderSize + roundUp4 (length a)
  body_spill : ∀ a, truncates a →
    ∃ s ∈ body a, s.items ≠ [] ∧ attrHeaderSize + roundUp4 (length a) < s.dst + s.items.length
  room_eq : ∀ a, ready a = true → ¬truncates a → room a = attrHeaderSize + roundUp4 (length a)
  length_eq : ∀ a, ready a = true → ¬truncates a → length a = valueSize a
  not_truncates : ∀ a, valueSize a < 65536 → ¬truncates a
  length_wireValue : ∀ a, ready a = true → (wireValue a).length = valueSize a
  patch_body : ∀ a, ready a = true → valueSize a < 65536 → ∀ xs base,
    patch xs base (body a) =
      overlay xs (base + attrHeaderSize) (wireValue a ++ padding (wireValue a).length)
  decode_wireValue : ∀ tid a, InLimits tid a → valueSize a < 65536 →
    decode tid (wireValue a) = some a
  valueSize_le_of_decode : ∀ tid bs a, decode tid bs = some a → valueSize a ≤ bs.length

/-- An object encodes into a large enough span, unless it is refused outright. -/
theorem AttributeSpec.encode_ok_iff {α : Type} [AttributeSpec α] {a : α} {size : Nat} :
    (StunAttribute.encode a size).1 = true ↔ ready a = true ∧ room a ≤ size := by
  rw [encode_eq]
  split
  · next h => exact iff_of_true rfl h
  · next h => exact iff_of_false Bool.false_ne_true h

/-- The laws of a class whose `length()` is the size of the value, without a cast. -/
@[reducible] def AttributeSpec.ofExact {α : Type} [StunAttribute α] (body : α → List Store)
    (paddedLength : α → Nat) (wireValue : α → Bytes) (InLimits : TransactionId → α → Prop)
    (encode_eq : ∀ a size, StunAttribute.encode a size =
      if size < attrHeaderSize + paddedLength a then (false, [])
      else
        (true, memcpy 0 (writeHeader (StunAttribute.type α).code
          (UInt16.ofNat (StunAttribute.length a))) :: body a))
    (length_eq : ∀ a : α, StunAttribute.length a = (wireValue a).length)
    (paddedLength_eq : ∀ a, paddedLength a = roundUp4 (wireValue a).length)
    (bounds : ∀ a, ∀ s ∈ body a, attrHeaderSize ≤ s.dst ∧
      s.dst + s.items.length ≤ attrHeaderSize + roundUp4 (wireValue a).length)
    (patch_body : ∀ a xs base, patch xs base (body a) =
      overlay xs (base + attrHeaderSize) (wireValue a ++ padding (wireValue a).length))
    (decode_wireValue : ∀ tid a, InLimits tid a → (wireValue a).length < 65536 →
      StunAttribute.decode tid (wireValue a) = some a)
    (valueSize_le_of_decode : ∀ tid bs (a : α), StunAttribute.decode tid bs = some a →
      (wireValue a).length ≤ bs.length) : AttributeSpec α where
  ready _ := true
  room a := attrHeaderSize + paddedLength a
  body := body
  valueSize a := (wireValue a).length
  truncates _ := False
  wireValue := wireValue
  InLimits := InLimits
  encode_eq a size := by
    rw [encode_eq]
    by_cases h : size < attrHeaderSize + paddedLength a
    · rw [if_pos h, if_neg (by omega)]
    · rw [if_neg h, if_pos ⟨rfl, by omega⟩]
  le_dst_body a s hs := (bounds a s hs).1
  body_reach a _ _ s hs := by
    rw [length_eq]
    exact (bounds a s hs).2
  body_spill _ h := h.elim
  room_eq a _ _ := by rw [length_eq, paddedLength_eq]
  length_eq a _ _ := length_eq a
  not_truncates _ _ h := h
  length_wireValue _ _ := rfl
  patch_body a _ _ := patch_body a
  decode_wireValue := decode_wireValue
  valueSize_le_of_decode := valueSize_le_of_decode

/-- The laws of a class whose stores, besides, follow one another from the end of the header. -/
@[reducible] def AttributeSpec.ofContiguous {α : Type} [StunAttribute α] (body : α → List Store)
    (paddedLength : α → Nat) (wireValue : α → Bytes) (InLimits : TransactionId → α → Prop)
    (encode_eq : ∀ a size, StunAttribute.encode a size =
      if size < attrHeaderSize + paddedLength a then (false, [])
      else
        (true, memcpy 0 (writeHeader (StunAttribute.type α).code
          (UInt16.ofNat (StunAttribute.length a))) :: body a))
    (length_eq : ∀ a : α, StunAttribute.length a = (wireValue a).length)
    (paddedLength_eq : ∀ a, paddedLength a = roundUp4 (wireValue a).length)
    (contiguous : ∀ a, Contiguous attrHeaderSize (body a))
    (items_eq : ∀ a, (body a).flatMap Patch.items = wireValue a ++ padding (wireValue a).length)
    (decode_wireValue : ∀ tid a, InLimits tid a → (wireValue a).length < 65536 →
      StunAttribute.decode tid (wireValue a) = some a)
    (valueSize_le_of_decode : ∀ tid bs (a : α), StunAttribute.decode tid bs = some a →
      (wireValue a).length ≤ bs.length) : AttributeSpec α :=
  .ofExact body paddedLength wireValue InLimits encode_eq length_eq paddedLength_eq
    (fun a s hs => by
      have hbound := (contiguous a).bounds hs
      have hpad := le_roundUp4 (wireValue a).length
      rw [items_eq, List.length_append, length_padding] at hbound
      omega)
    (fun a xs base => by rw [patch_of_contiguous xs base (contiguous a), items_eq])
    decode_wireValue valueSize_le_of_decode

/-- The laws of a class that checks its span against a `length()` cast to 16 bits and then copies
the whole value. -/
@[reducible] def AttributeSpec.ofCast {α : Type} [StunAttribute α] (body : α → List Store)
    (wireValue : α → Bytes) (InLimits : TransactionId → α → Prop)
    (encode_eq : ∀ a size, StunAttribute.encode a size =
      if size < attrHeaderSize + roundUp4 (StunAttribute.length a) then (false, [])
      else
        (true, memcpy 0 (writeHeader (StunAttribute.type α).code
          (UInt16.ofNat (StunAttribute.length a))) :: body a))
    (length_eq : ∀ a : α, StunAttribute.length a = (wireValue a).length % 65536)
    (bounds : ∀ a, ∀ s ∈ body a, attrHeaderSize ≤ s.dst ∧ s.dst + s.items.length ≤
      attrHeaderSize + max (roundUp4 (StunAttribute.length a)) (wireValue a).length)
    (last : ∀ a, 65536 ≤ (wireValue a).length → ∃ s ∈ body a, s.items ≠ [] ∧
      s.dst + s.items.length = attrHeaderSize + (wireValue a).length)
    (patch_body : ∀ a, (wireValue a).length < 65536 → ∀ xs base,
      patch xs base (body a) =
        overlay xs (base + attrHeaderSize) (wireValue a ++ padding (wireValue a).length))
    (decode_wireValue : ∀ tid a, InLimits tid a → (wireValue a).length < 65536 →
      StunAttribute.decode tid (wireValue a) = some a)
    (valueSize_le_of_decode : ∀ tid bs (a : α), StunAttribute.decode tid bs = some a →
      (wireValue a).length ≤ bs.length) : AttributeSpec α where
  ready _ := true
  room a := attrHeaderSize + roundUp4 (StunAttribute.length a)
  body := body
  valueSize a := (wireValue a).length
  truncates a := 65536 ≤ (wireValue a).length
  wireValue := wireValue
  InLimits := InLimits
  encode_eq a size := by
    rw [encode_eq]
    by_cases h : size < attrHeaderSize + roundUp4 (StunAttribute.length a)
    · rw [if_pos h, if_neg (by omega)]
    · rw [if_neg h, if_pos ⟨rfl, by omega⟩]
  le_dst_body a s hs := (bounds a s hs).1
  body_reach a _ hfit s hs := by
    have hbound := (bounds a s hs).2
    have hpad := le_roundUp4 (StunAttribute.length a)
    have hlen := length_eq a
    rw [Nat.mod_eq_of_lt (by omega)] at hlen
    omega
  body_spill a hlong := by
    obtain ⟨s, hs, hne, hend⟩ := last a hlong
    have hpad := roundUp4_lt (StunAttribute.length a)
    have hlen := length_eq a
    exact ⟨s, hs, hne, by omega⟩
  room_eq _ _ _ := rfl
  length_eq a _ hfit := by rw [length_eq, Nat.mod_eq_of_lt (by omega)]
  not_truncates _ h := by omega
  length_wireValue _ _ := rfl
  patch_body a _ h := patch_body a h
  decode_wireValue := decode_wireValue
  valueSize_le_of_decode := valueSize_le_of_decode

end Stunxx
