import Stunxx.Span
import Mathlib.Algebra.BigOperators.Ring.List
import Mathlib.Algebra.Order.BigOperators.Group.List

/-!
# Attributes that carry a list of entries

`UnknownAttributesAttr.hpp`, `PasswordAlgorithmEntry.hpp`, `PasswordAlgorithmAttr.hpp` and
`PasswordAlgorithmsAttr.hpp`. Here `length()` is a `size_t`, so the check of the span is made
against the real size. The encoders write entry after entry; each entry is cleared, padding
included, before its fields are stored.
-/

namespace Stunxx

open Overlay

/-! ## UnknownAttributesAttr -/

structure UnknownAttributesAttr where
  value : List UInt16 := []
deriving DecidableEq

namespace UnknownAttributesAttr

def length (a : UnknownAttributesAttr) : Nat := a.value.length * 2

def paddedLength (a : UnknownAttributesAttr) : Nat := roundUp4 a.length

/-- The loop over `unknown_attrs_`, from the offset of the next entry on. -/
def typeStores (off : Nat) : List UInt16 → List Store
  | [] => []
  | t :: ts => memcpy off (writeBe16 t) :: typeStores (off + 2) ts

def body (a : UnknownAttributesAttr) : List Store :=
  typeStores attrHeaderSize a.value ++
    if 0 < a.paddedLength - a.length then
      [memset (attrHeaderSize + a.length) 0 (a.paddedLength - a.length)]
    else []

def encode (a : UnknownAttributesAttr) (size : Nat) : Bool × List Store :=
  if size < attrHeaderSize + a.paddedLength then (false, [])
  else
    (true, memcpy 0 (writeHeader StunAttrType.unknownAttributes.code (UInt16.ofNat a.length)) ::
      a.body)

/-- The loop of `decode`, two bytes at a time. -/
def readTypes : Bytes → List UInt16
  | b0 :: b1 :: rest => readBe16 b0 b1 :: readTypes rest
  | _ => []

def decode (buffer : Bytes) : Option UnknownAttributesAttr :=
  if buffer.length % 2 ≠ 0 then none else some ⟨readTypes buffer⟩

instance : StunAttribute UnknownAttributesAttr where
  type := .unknownAttributes
  length := length
  encode := encode
  decode _ := decode

/-- The bytes of an UNKNOWN-ATTRIBUTES value. -/
def wireValue (a : UnknownAttributesAttr) : Bytes := a.value.flatMap writeBe16

theorem length_flatMap_writeBe16 (ts : List UInt16) :
    (ts.flatMap writeBe16).length = ts.length * 2 := by
  induction ts with
  | nil => rfl
  | cons t ts ih =>
    rw [List.flatMap_cons, List.length_append, ih, length_writeBe16, List.length_cons]
    omega

theorem length_wireValue (a : UnknownAttributesAttr) : a.wireValue.length = a.length :=
  length_flatMap_writeBe16 a.value

theorem typeStores_contiguous (off : Nat) (ts : List UInt16) {ps : List Store}
    (h : Contiguous (off + ts.length * 2) ps) : Contiguous off (typeStores off ts ++ ps) := by
  induction ts generalizing off with
  | nil => simpa [typeStores] using h
  | cons t ts ih =>
    refine ⟨rfl, ih (off + 2) ?_⟩
    rwa [Nat.add_assoc, Nat.add_comm 2, ← Nat.succ_mul]

theorem typeStores_items (off : Nat) (ts : List UInt16) :
    (typeStores off ts).flatMap Patch.items = ts.flatMap writeBe16 := by
  induction ts generalizing off with
  | nil => rfl
  | cons t ts ih => simp only [typeStores, List.flatMap_cons, memcpy_items, ih]

theorem contiguous (a : UnknownAttributesAttr) : Contiguous attrHeaderSize a.body := by
  apply typeStores_contiguous
  split
  · exact ⟨rfl, trivial⟩
  · trivial

theorem items_body (a : UnknownAttributesAttr) :
    a.body.flatMap Patch.items = a.wireValue ++ padding a.wireValue.length := by
  rw [body, List.flatMap_append, typeStores_items, length_wireValue, padding]
  congr 1
  split
  · simp [paddedLength]
  · next h =>
    rw [paddedLength] at h
    rw [Nat.eq_zero_of_not_pos h]
    rfl

theorem readTypes_flatMap (ts : List UInt16) : readTypes (ts.flatMap writeBe16) = ts := by
  induction ts with
  | nil => rfl
  | cons t ts ih =>
    have hread := readBe16_of_writeBe16 (v := t) rfl
    rw [List.flatMap_cons]
    simp only [writeBe16, List.cons_append, List.nil_append, readTypes] at ih ⊢
    rw [ih, hread]

theorem length_readTypes (bs : Bytes) : (readTypes bs).length * 2 ≤ bs.length := by
  fun_induction readTypes bs with
  | case1 b0 b1 rest ih =>
    simp only [List.length_cons]
    omega
  | case2 bs h => exact Nat.zero_le _

theorem decode_wireValue (a : UnknownAttributesAttr) : decode a.wireValue = some a := by
  have heven : ¬a.wireValue.length % 2 ≠ 0 := by
    rw [length_wireValue, length]
    omega
  rw [decode, if_neg heven, wireValue, readTypes_flatMap]

theorem length_of_decode {bs : Bytes} {a : UnknownAttributesAttr} (h : decode bs = some a) :
    a.wireValue.length ≤ bs.length := by
  obtain ⟨-, ha⟩ := Option.ite_none_left_eq_some.1 h
  cases ha
  rw [length_wireValue]
  exact length_readTypes bs

instance : AttributeSpec UnknownAttributesAttr :=
  .ofContiguous body paddedLength wireValue (fun _ _ => True) (fun _ _ => rfl)
    (fun a => a.length_wireValue.symm) (fun a => by rw [length_wireValue]; rfl) contiguous
    items_body (fun _ a _ _ => a.decode_wireValue) (fun _ _ _ h => length_of_decode h)

end UnknownAttributesAttr

/-! ## PasswordAlgorithmEntry -/

structure PasswordAlgorithmEntry where
  algorithm : PasswordAlgorithm := ⟨0⟩
  parameters : Bytes := []
deriving DecidableEq

namespace PasswordAlgorithmEntry

def length (e : PasswordAlgorithmEntry) : Nat := 4 + e.parameters.length

def paddedLength (e : PasswordAlgorithmEntry) : Nat := 4 + roundUp4 e.parameters.length

/-- The stores of one entry at `off`, the same in both password attributes. -/
def stores (off : Nat) (e : PasswordAlgorithmEntry) : List Store :=
  [memset off 0 e.paddedLength, memcpy off (writeBe16 e.algorithm.code),
    memcpy (off + 2) (writeBe16 (UInt16.ofNat e.parameters.length)),
    memcpy (off + 4) e.parameters]

/-- The bytes of an entry, padding included. -/
def wire (e : PasswordAlgorithmEntry) : Bytes :=
  writeBe16 e.algorithm.code ++ writeBe16 (UInt16.ofNat e.parameters.length) ++ e.parameters ++
    padding e.parameters.length

theorem length_wire (e : PasswordAlgorithmEntry) : e.wire.length = e.paddedLength := by
  have hle := le_roundUp4 e.parameters.length
  simp only [wire, List.length_append, length_writeBe16, length_padding, paddedLength]
  omega

theorem roundUp4_paddedLength (e : PasswordAlgorithmEntry) :
    roundUp4 e.paddedLength = e.paddedLength := by
  simp only [paddedLength, roundUp4]
  omega

theorem parameters_lt {e : PasswordAlgorithmEntry} (h : e.paddedLength < 65536) :
    e.parameters.length < 65536 := by
  have hle := le_roundUp4 e.parameters.length
  rw [paddedLength] at h
  omega

theorem bounds {off : Nat} {e : PasswordAlgorithmEntry} {s : Store} (hs : s ∈ stores off e) :
    off ≤ s.dst ∧ s.dst + s.items.length ≤ off + e.paddedLength := by
  have hle := le_roundUp4 e.parameters.length
  simp only [stores, List.mem_cons, List.not_mem_nil, or_false] at hs
  rcases hs with rfl | rfl | rfl | rfl <;> simp [paddedLength] <;> omega

theorem patch_stores (xs : Bytes) (base off : Nat) (e : PasswordAlgorithmEntry) :
    patch xs base (stores off e) = overlay xs (base + off) e.wire := by
  have hle := le_roundUp4 e.parameters.length
  have hcont : Contiguous (off + 0) [memcpy off (writeBe16 e.algorithm.code),
      memcpy (off + 2) (writeBe16 (UInt16.ofNat e.parameters.length)),
      memcpy (off + 4) e.parameters] := ⟨rfl, rfl, rfl, trivial⟩
  rw [stores, patch_memset xs base hcont (by simp [paddedLength]; omega)]
  have hpad : e.paddedLength - (2 + (2 + e.parameters.length)) =
      roundUp4 e.parameters.length - e.parameters.length := by
    rw [paddedLength]
    omega
  simp [wire, padding, hpad]

end PasswordAlgorithmEntry

/-! ## PasswordAlgorithmAttr -/

structure PasswordAlgorithmAttr where
  entry : PasswordAlgorithmEntry := {}
deriving DecidableEq

namespace PasswordAlgorithmAttr

def length (a : PasswordAlgorithmAttr) : Nat := a.entry.paddedLength

def paddedLength (a : PasswordAlgorithmAttr) : Nat := a.entry.paddedLength

def decode : Bytes → Option PasswordAlgorithmAttr
  | b0 :: b1 :: b2 :: b3 :: rest =>
    let paramLen := (readBe16 b2 b3).toNat
    if rest.length < roundUp4 paramLen then none
    else some ⟨⟨⟨readBe16 b0 b1⟩, rest.take paramLen⟩⟩
  | _ => none

def body (a : PasswordAlgorithmAttr) : List Store := a.entry.stores attrHeaderSize

def encode (a : PasswordAlgorithmAttr) (size : Nat) : Bool × List Store :=
  if size < attrHeaderSize + a.entry.paddedLength then (false, [])
  else
    (true, memcpy 0 (writeHeader StunAttrType.passwordAlgorithm.code
      (UInt16.ofNat a.entry.paddedLength)) :: a.body)

instance : StunAttribute PasswordAlgorithmAttr where
  type := .passwordAlgorithm
  length := length
  encode := encode
  decode _ := decode

theorem decode_wire {e : PasswordAlgorithmEntry} (h : e.wire.length < 65536) :
    decode e.wire = some ⟨e⟩ := by
  have hparams := e.parameters_lt (e.length_wire ▸ h)
  obtain ⟨hlen, htake⟩ := take_of_writeBe16 rfl hparams (padding e.parameters.length)
  have halg := readBe16_of_writeBe16 (v := e.algorithm.code) rfl
  have hle := le_roundUp4 e.parameters.length
  simp only [PasswordAlgorithmEntry.wire, writeBe16, List.cons_append, List.nil_append, decode]
  rw [htake, halg, hlen, if_neg]
  simp only [List.length_append, length_padding]
  omega

theorem paddedLength_of_decode {bs : Bytes} {a : PasswordAlgorithmAttr}
    (h : decode bs = some a) : a.paddedLength ≤ bs.length := by
  unfold decode at h
  split at h
  · next b0 b1 b2 b3 rest =>
    obtain ⟨hroom, ha⟩ := Option.ite_none_left_eq_some.1 h
    cases ha
    have hle := le_roundUp4 (readBe16 b2 b3).toNat
    simp only [paddedLength, PasswordAlgorithmEntry.paddedLength, List.length_take,
      List.length_cons]
    rw [Nat.min_eq_left (by omega)]
    omega
  · cases h

instance : AttributeSpec PasswordAlgorithmAttr :=
  .ofExact body paddedLength (fun a => a.entry.wire) (fun _ _ => True) (fun _ _ => rfl)
    (fun a => a.entry.length_wire.symm)
    (fun a => by rw [a.entry.length_wire, a.entry.roundUp4_paddedLength]; rfl)
    (fun a s hs => by
      rw [a.entry.length_wire, a.entry.roundUp4_paddedLength]
      exact PasswordAlgorithmEntry.bounds hs)
    (fun a xs base => by
      rw [body, a.entry.patch_stores, padding, a.entry.length_wire,
        a.entry.roundUp4_paddedLength, Nat.sub_self, List.replicate_zero, List.append_nil])
    (fun _ _ _ h => decode_wire h)
    (fun _ _ a h => a.entry.length_wire.trans_le (paddedLength_of_decode h))

end PasswordAlgorithmAttr

/-! ## PasswordAlgorithmsAttr -/

structure PasswordAlgorithmsAttr where
  entries : List PasswordAlgorithmEntry := []
deriving DecidableEq

namespace PasswordAlgorithmsAttr

def length (a : PasswordAlgorithmsAttr) : Nat :=
  a.entries.foldl (fun len e => len + e.paddedLength) 0

def paddedLength (a : PasswordAlgorithmsAttr) : Nat := a.length

/-- The loop of `decode`: the entries read so far and what is left of the buffer. -/
def decodeLoop (entries : List PasswordAlgorithmEntry) :
    Bytes → Option (List PasswordAlgorithmEntry)
  | b0 :: b1 :: b2 :: b3 :: rest =>
    let paramLen := (readBe16 b2 b3).toNat
    if rest.length < roundUp4 paramLen then none
    else
      decodeLoop (entries ++ [⟨⟨readBe16 b0 b1⟩, rest.take paramLen⟩])
        (rest.drop (roundUp4 paramLen))
  | _ => some entries
termination_by buffer => buffer.length
decreasing_by
  simp only [List.length_drop, List.length_cons]
  omega

def decode (buffer : Bytes) : Option PasswordAlgorithmsAttr :=
  (decodeLoop [] buffer).map PasswordAlgorithmsAttr.mk

/-- The loop of `encode`, from the offset of the next entry on. -/
def entryStores (off : Nat) : List PasswordAlgorithmEntry → List Store
  | [] => []
  | e :: es => e.stores off ++ entryStores (off + e.paddedLength) es

def body (a : PasswordAlgorithmsAttr) : List Store := entryStores attrHeaderSize a.entries

def encode (a : PasswordAlgorithmsAttr) (size : Nat) : Bool × List Store :=
  if size < attrHeaderSize + a.length then (false, [])
  else
    (true, memcpy 0 (writeHeader StunAttrType.passwordAlgorithms.code (UInt16.ofNat a.length)) ::
      a.body)

instance : StunAttribute PasswordAlgorithmsAttr where
  type := .passwordAlgorithms
  length := length
  encode := encode
  decode _ := decode

/-- The bytes of a PASSWORD-ALGORITHMS value. -/
def wireValue (a : PasswordAlgorithmsAttr) : Bytes :=
  a.entries.flatMap PasswordAlgorithmEntry.wire

theorem length_flatMap_wire (es : List PasswordAlgorithmEntry) :
    (es.flatMap PasswordAlgorithmEntry.wire).length =
      (es.map PasswordAlgorithmEntry.paddedLength).sum := by
  simp only [List.length_flatMap, PasswordAlgorithmEntry.length_wire]

/-- Entries of a short value have short parameters. -/
theorem parameters_lt_of_mem {es : List PasswordAlgorithmEntry}
    (h : (es.flatMap PasswordAlgorithmEntry.wire).length < 65536) {e : PasswordAlgorithmEntry}
    (he : e ∈ es) : e.parameters.length < 65536 := by
  have hmem := List.le_sum_of_mem
    (List.mem_map_of_mem (f := PasswordAlgorithmEntry.paddedLength) he)
  rw [length_flatMap_wire] at h
  exact e.parameters_lt (by omega)

theorem foldl_paddedLength (n : Nat) (es : List PasswordAlgorithmEntry) :
    es.foldl (fun len e => len + e.paddedLength) n =
      n + (es.map PasswordAlgorithmEntry.paddedLength).sum := by
  induction es generalizing n with
  | nil => rfl
  | cons e es ih => rw [List.foldl_cons, ih, List.map_cons, List.sum_cons, Nat.add_assoc]

theorem length_wireValue (a : PasswordAlgorithmsAttr) : a.wireValue.length = a.length := by
  rw [wireValue, length_flatMap_wire, length, foldl_paddedLength, Nat.zero_add]

theorem roundUp4_length (a : PasswordAlgorithmsAttr) : roundUp4 a.length = a.length := by
  have hdvd : 4 ∣ a.length := by
    rw [length, foldl_paddedLength, Nat.zero_add]
    apply List.dvd_sum
    intro n hn
    obtain ⟨e, -, rfl⟩ := List.mem_map.1 hn
    exact Nat.dvd_add (Nat.dvd_refl 4) (four_dvd_roundUp4 _)
  obtain ⟨k, hk⟩ := hdvd
  rw [hk, roundUp4]
  omega

theorem entryStores_bounds {off : Nat} {es : List PasswordAlgorithmEntry} {s : Store}
    (hs : s ∈ entryStores off es) :
    off ≤ s.dst ∧ s.dst + s.items.length ≤
      off + (es.map PasswordAlgorithmEntry.paddedLength).sum := by
  induction es generalizing off with
  | nil => cases hs
  | cons e es ih =>
    rw [List.map_cons, List.sum_cons]
    rcases List.mem_append.1 hs with hs | hs
    · have := PasswordAlgorithmEntry.bounds hs
      omega
    · have := ih hs
      omega

theorem patch_entryStores (xs : Bytes) (base off : Nat) (es : List PasswordAlgorithmEntry) :
    patch xs base (entryStores off es) =
      overlay xs (base + off) (es.flatMap PasswordAlgorithmEntry.wire) := by
  induction es generalizing xs off with
  | nil => simp [entryStores]
  | cons e es ih =>
    rw [entryStores, patch_append, PasswordAlgorithmEntry.patch_stores, ih, List.flatMap_cons,
      overlay_append, PasswordAlgorithmEntry.length_wire, Nat.add_assoc]

/-- The loop reads an encoded entry and goes on behind it. -/
theorem decodeLoop_wire (acc : List PasswordAlgorithmEntry) {e : PasswordAlgorithmEntry}
    (h : e.parameters.length < 65536) (rest : Bytes) :
    decodeLoop acc (e.wire ++ rest) = decodeLoop (acc ++ [e]) rest := by
  obtain ⟨hlen, htake⟩ := take_of_writeBe16 rfl h
    (padding e.parameters.length ++ rest)
  have halg := readBe16_of_writeBe16 (v := e.algorithm.code) rfl
  have hle := le_roundUp4 e.parameters.length
  have hskip : (e.parameters ++ (padding e.parameters.length ++ rest)).drop
      (roundUp4 e.parameters.length) = rest := by
    rw [← List.append_assoc]
    apply List.drop_left'
    simp only [List.length_append, length_padding]
    omega
  simp only [PasswordAlgorithmEntry.wire, writeBe16, List.cons_append, List.nil_append,
    List.append_assoc]
  rw [decodeLoop, htake, halg, hlen, hskip, if_neg]
  simp only [List.length_append, length_padding]
  omega

theorem decodeLoop_flatMap (acc : List PasswordAlgorithmEntry)
    {es : List PasswordAlgorithmEntry} (h : ∀ e ∈ es, e.parameters.length < 65536) :
    decodeLoop acc (es.flatMap PasswordAlgorithmEntry.wire) = some (acc ++ es) := by
  induction es generalizing acc with
  | nil =>
    rw [List.flatMap_nil, List.append_nil, decodeLoop]
    simp
  | cons e es ih =>
    rw [List.flatMap_cons, decodeLoop_wire acc (h e List.mem_cons_self),
      ih _ fun q hq => h q (List.mem_cons_of_mem e hq), List.append_assoc, List.singleton_append]

theorem paddedLength_of_decodeLoop {acc es : List PasswordAlgorithmEntry} {bs : Bytes}
    (h : decodeLoop acc bs = some es) :
    (es.map PasswordAlgorithmEntry.paddedLength).sum ≤
      (acc.map PasswordAlgorithmEntry.paddedLength).sum + bs.length := by
  fun_induction decodeLoop acc bs with
  | case1 acc b0 b1 b2 b3 rest paramLen hshort => cases h
  | case2 acc b0 b1 b2 b3 rest paramLen hroom ih =>
    have hrec := ih h
    have hle := le_roundUp4 paramLen
    have htake : min paramLen rest.length = paramLen := by omega
    simp only [List.map_append, List.map_cons, List.map_nil, List.sum_append, List.sum_cons,
      List.sum_nil, PasswordAlgorithmEntry.paddedLength, List.length_take, List.length_drop,
      htake] at hrec
    simp only [List.length_cons]
    omega
  | case3 acc bs hrest =>
    cases h
    exact Nat.le_add_right _ _

theorem decode_wireValue {a : PasswordAlgorithmsAttr} (h : a.wireValue.length < 65536) :
    decode a.wireValue = some a := by
  have hparams : ∀ e ∈ a.entries, e.parameters.length < 65536 := fun _ => parameters_lt_of_mem h
  rw [decode, wireValue, decodeLoop_flatMap [] hparams]
  rfl

theorem length_of_decode {bs : Bytes} {a : PasswordAlgorithmsAttr} (h : decode bs = some a) :
    a.wireValue.length ≤ bs.length := by
  obtain ⟨es, hes, rfl⟩ := Option.map_eq_some_iff.1 h
  have hle := paddedLength_of_decodeLoop hes
  rw [wireValue, length_flatMap_wire]
  simpa using hle

instance : AttributeSpec PasswordAlgorithmsAttr :=
  .ofExact body paddedLength wireValue (fun _ _ => True) (fun _ _ => rfl)
    (fun a => a.length_wireValue.symm)
    (fun a => by rw [length_wireValue, roundUp4_length]; rfl)
    (fun a s hs => by
      rw [length_wireValue, roundUp4_length, length, foldl_paddedLength, Nat.zero_add]
      exact entryStores_bounds hs)
    (fun a xs base => by
      rw [body, patch_entryStores, padding, length_wireValue, roundUp4_length, Nat.sub_self,
        List.replicate_zero, List.append_nil]
      rfl)
    (fun _ _ _ h => decode_wireValue h) (fun _ _ _ h => length_of_decode h)

def addEntry (a : PasswordAlgorithmsAttr) (entry : PasswordAlgorithmEntry) :
    PasswordAlgorithmsAttr := ⟨a.entries ++ [entry]⟩

def contains (a : PasswordAlgorithmsAttr) (passwordAlgorithm : PasswordAlgorithm) : Bool :=
  a.entries.any fun entry => entry.algorithm == passwordAlgorithm

theorem contains_iff {a : PasswordAlgorithmsAttr} {p : PasswordAlgorithm} :
    a.contains p = true ↔ p ∈ a.entries.map PasswordAlgorithmEntry.algorithm := by
  simp only [contains, List.any_eq_true, beq_iff_eq, List.mem_map]

theorem entries_foldl_addEntry (a : PasswordAlgorithmsAttr)
    (entries : List PasswordAlgorithmEntry) :
    (entries.foldl addEntry a).entries = a.entries ++ entries := by
  induction entries generalizing a with
  | nil => exact (List.append_nil a.entries).symm
  | cons e es ih =>
    rw [List.foldl_cons, ih, addEntry, List.append_assoc, List.singleton_append]

/-- The receiver of entries added one by one finds the algorithms of these entries. -/
theorem contains_of_decode {entries : List PasswordAlgorithmEntry}
    (h : (entries.flatMap PasswordAlgorithmEntry.wire).length < 65536) {p : PasswordAlgorithm} :
    ∃ a, decode (entries.foldl addEntry {}).wireValue = some a ∧
      (a.contains p = true ↔ p ∈ entries.map PasswordAlgorithmEntry.algorithm) := by
  have hentries : (entries.foldl addEntry {}).entries = entries := entries_foldl_addEntry {} entries
  refine ⟨_, decode_wireValue ?_, ?_⟩
  · rwa [wireValue, hentries]
  · rw [contains_iff, hentries]

end PasswordAlgorithmsAttr

end Stunxx
