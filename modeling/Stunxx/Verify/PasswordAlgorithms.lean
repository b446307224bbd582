import Stunxx.Attributes.Lists
import Stunxx.Wire

/-!
# The entries of the password attributes

An entry has the format of an attribute: an algorithm for a type, the parameters for a value,
padding to a multiple of four. PASSWORD-ALGORITHM is read as the entry at the front of its value,
PASSWORD-ALGORITHMS as one such entry after the other while four bytes are left
(`decodeLoop_of_some`), so the two agree on the format. Neither looks at what is left over.
-/

namespace Stunxx

open Overlay Tlv

/-! ## Entries on the wire -/

namespace PasswordAlgorithmEntry

/-- The entry of a record. -/
def ofRecord (r : WireAttr) : PasswordAlgorithmEntry := ⟨⟨r.tag⟩, r.value⟩

/-- The record with zeros for its padding. -/
def cleared (r : WireAttr) : WireAttr :=
  { r with padding := List.replicate r.padding.length 0 }

theorem wire_cleared {r : WireAttr} (h : Full stunFormat r) :
    Tlv.wire stunFormat (cleared r) = (ofRecord r).wire := by
  have hpad : r.padding.length = roundUp4 r.value.length - r.value.length := h.padding_eq
  rw [Tlv.wire, cleared, hpad]
  rfl

theorem length_wire_record {r : WireAttr} (h : Full stunFormat r) :
    (Tlv.wire stunFormat r).length = (ofRecord r).paddedLength := by
  rw [h.length_wire, stride_stunFormat]
  rfl

/-- `bs` is the entries `rs`, end to end, each with its padding, and `rest` behind them. -/
structure Stream (bs : Bytes) (rs : List WireAttr) (rest : Bytes) : Prop where
  full : ∀ r ∈ rs, Full stunFormat r
  bytes : bs = rs.flatMap (Tlv.wire stunFormat) ++ rest

theorem Stream.cons {r : WireAttr} {bs rest : Bytes} {rs : List WireAttr} (hr : Full stunFormat r)
    (h : Stream bs rs rest) : Stream (Tlv.wire stunFormat r ++ bs) (r :: rs) rest where
  full q hq := by
    rcases List.mem_cons.1 hq with rfl | hq
    · exact hr
    · exact h.full q hq
  bytes := by rw [h.bytes, List.flatMap_cons, List.append_assoc]

theorem Stream.uncons {r : WireAttr} {bs rest : Bytes} {rs : List WireAttr}
    (h : Stream bs (r :: rs) rest) :
    ∃ tail, Full stunFormat r ∧ bs = Tlv.wire stunFormat r ++ tail ∧ Stream tail rs rest := by
  refine ⟨_, h.full r List.mem_cons_self, ?_, fun q hq => h.full q (List.mem_cons_of_mem r hq), rfl⟩
  rw [h.bytes, List.flatMap_cons, List.append_assoc]

end PasswordAlgorithmEntry

open PasswordAlgorithmEntry (ofRecord cleared wire_cleared length_wire_record Stream)

/-- PASSWORD-ALGORITHM reads the first record of its value, if all of it is there. -/
theorem PasswordAlgorithmAttr.decode_eq (bs : Bytes) :
    decode bs =
      if stunFormat.headSize + (stunFormat.readHead bs).2 +
          stunFormat.pad (stunFormat.readHead bs).2 ≤ bs.length then
        some ⟨ofRecord (firstRecord stunFormat bs)⟩
      else none := by
  by_cases hshort : bs.length < 4
  · rw [if_neg (by rw [headSize_stunFormat]; omega), decode]
    rintro b0 b1 b2 b3 rest rfl
    simp only [List.length_cons] at hshort
    omega
  · obtain ⟨b0, b1, b2, b3, rest, rfl⟩ := exists_four (Nat.le_of_not_lt hshort)
    have hread : stunFormat.readHead (b0 :: b1 :: b2 :: b3 :: rest) =
        (readBe16 b0 b1, (readBe16 b2 b3).toNat) := rfl
    have hle := le_roundUp4 (readBe16 b2 b3).toNat
    simp only [decode, hread, headSize_stunFormat, pad_stunFormat, List.length_cons]
    by_cases hroom : rest.length < roundUp4 (readBe16 b2 b3).toNat
    · rw [if_pos hroom, if_neg (by omega)]
    · rw [if_neg hroom, if_pos (by omega)]
      rfl

/-- **What PASSWORD-ALGORITHM reads**: the entry at the front of its value. -/
theorem PasswordAlgorithmAttr.decode_eq_some_iff {bs : Bytes} {a : PasswordAlgorithmAttr} :
    decode bs = some a ↔ ∃ r rest, Full stunFormat r ∧ bs = wire stunFormat r ++ rest ∧
      a = ⟨ofRecord r⟩ := by
  rw [decode_eq, Option.ite_none_right_eq_some, Option.some.injEq]
  constructor
  · rintro ⟨hroom, rfl⟩
    have hsplit : wire stunFormat (firstRecord stunFormat bs) ++ _ = bs :=
      wire_firstRecord stunFormat (by omega) (by omega)
    exact ⟨_, _, full_firstRecord stunFormat hroom, hsplit.symm, rfl⟩
  · rintro ⟨r, rest, hr, rfl, rfl⟩
    have hlen := Tlv.length_wire stunFormat r
    have hpad := hr.padding_eq
    rw [readHead_wire stunFormat hr.value_lt,
      firstRecord_wire stunFormat rest hr.value_lt (.inl hpad), List.length_append]
    refine ⟨?_, rfl⟩
    simp only
    omega

namespace PasswordAlgorithmsAttr

/-- Where PASSWORD-ALGORITHM reads an entry, PASSWORD-ALGORITHMS reads it too, and goes on behind
it. -/
theorem decodeLoop_of_some {bs : Bytes} {a : PasswordAlgorithmAttr}
    (h : PasswordAlgorithmAttr.decode bs = some a) (acc : List PasswordAlgorithmEntry) :
    decodeLoop acc bs = decodeLoop (acc ++ [a.entry]) (bs.drop a.paddedLength) := by
  unfold PasswordAlgorithmAttr.decode at h
  split at h
  · next b0 b1 b2 b3 rest =>
    simp only [Option.ite_none_left_eq_some, Option.some.injEq] at h
    obtain ⟨hroom, rfl⟩ := h
    have hle := le_roundUp4 (readBe16 b2 b3).toNat
    have hlen : (rest.take (readBe16 b2 b3).toNat).length = (readBe16 b2 b3).toNat := by
      rw [List.length_take]
      omega
    have hdrop : (b0 :: b1 :: b2 :: b3 :: rest).drop (4 + roundUp4 (readBe16 b2 b3).toNat) =
        rest.drop (roundUp4 (readBe16 b2 b3).toNat) := by
      rw [Nat.add_comm]
      rfl
    rw [decodeLoop, if_neg hroom, PasswordAlgorithmAttr.paddedLength,
      PasswordAlgorithmEntry.paddedLength, hlen, hdrop]
  · cases h

/-- Where it reads none, PASSWORD-ALGORITHMS is at its end. -/
theorem decodeLoop_of_none {bs : Bytes} (h : PasswordAlgorithmAttr.decode bs = none)
    (acc : List PasswordAlgorithmEntry) :
    decodeLoop acc bs = if bs.length < 4 then some acc else none := by
  by_cases hshort : bs.length < 4
  · rw [if_pos hshort, decodeLoop]
    rintro b0 b1 b2 b3 rest rfl
    simp only [List.length_cons] at hshort
    omega
  · obtain ⟨b0, b1, b2, b3, rest, rfl⟩ := exists_four (Nat.le_of_not_lt hshort)
    rw [if_neg hshort]
    simp only [PasswordAlgorithmAttr.decode, ite_eq_left_iff, reduceCtorEq, imp_false,
      not_not] at h
    rw [decodeLoop, if_pos h]

/-- It goes on behind a record. -/
theorem decodeLoop_of_wire {r : WireAttr} (hr : Full stunFormat r) (tail : Bytes)
    (acc : List PasswordAlgorithmEntry) :
    decodeLoop acc (wire stunFormat r ++ tail) = decodeLoop (acc ++ [ofRecord r]) tail := by
  have hsingle := PasswordAlgorithmAttr.decode_eq_some_iff.2 ⟨r, tail, hr, rfl, rfl⟩
  rw [decodeLoop_of_some hsingle, PasswordAlgorithmAttr.paddedLength, ← length_wire_record hr,
    List.drop_left]

/-- **What PASSWORD-ALGORITHMS reads**: entries, end to end, and less than four bytes. -/
theorem decodeLoop_eq_some_iff {acc es : List PasswordAlgorithmEntry} {bs : Bytes} :
    decodeLoop acc bs = some es ↔
      ∃ rs rest, Stream bs rs rest ∧ rest.length < 4 ∧ es = acc ++ rs.map ofRecord := by
  constructor
  · intro h
    induction hlen : bs.length using Nat.strongRecOn generalizing acc bs with
    | _ len ih =>
      subst hlen
      cases hsingle : PasswordAlgorithmAttr.decode bs with
      | none =>
        rw [decodeLoop_of_none hsingle] at h
        split at h
        · next hshort =>
          cases h
          exact ⟨[], bs, ⟨fun r hr => (List.not_mem_nil hr).elim, rfl⟩, hshort,
            (List.append_nil _).symm⟩
        · cases h
      | some a =>
        obtain ⟨r, tail, hr, rfl, rfl⟩ := PasswordAlgorithmAttr.decode_eq_some_iff.1 hsingle
        rw [decodeLoop_of_wire hr] at h
        have hpos := hr.length_wire
        rw [stride_stunFormat, attrHeaderSize] at hpos
        obtain ⟨rs, rest, hstream, hrest, hes⟩ := ih tail.length
          (by rw [List.length_append]; omega) h rfl
        refine ⟨r :: rs, rest, hstream.cons hr, hrest, ?_⟩
        rw [hes, List.map_cons, List.append_assoc, List.singleton_append]
  · rintro ⟨rs, rest, hstream, hrest, rfl⟩
    induction rs generalizing acc bs with
    | nil =>
      obtain rfl : bs = rest := hstream.bytes
      rw [decodeLoop, List.map_nil, List.append_nil]
      rintro b0 b1 b2 b3 tail rfl
      simp only [List.length_cons] at hrest
      omega
    | cons r rs ih =>
      obtain ⟨tail, hr, rfl, htail⟩ := hstream.uncons
      rw [decodeLoop_of_wire hr, ih htail, List.map_cons, List.append_assoc,
        List.singleton_append]

end PasswordAlgorithmsAttr

/-! ## What the encoders write -/

/-- An encoder that stores a header and then a value behind it, in a span with room for both. -/
theorem StunAttribute.writes_of_stores {α : Type} [StunAttribute α] {a : α}
    {xs header value : Bytes} {body : List Store}
    (hencode : encode a xs.length = (true, memcpy 0 header :: body))
    (hbody : ∀ ys : Bytes, patch ys 0 body = overlay ys attrHeaderSize value)
    (hlength : length a = value.length) (hroom : attrHeaderSize + value.length ≤ xs.length) :
    (encode a xs.length).1 = true ∧ writtenValue a xs = value := by
  rw [writtenValue, hencode, hlength, patch_cons, hbody]
  refine ⟨rfl, slice_overlay_self ?_⟩
  rwa [length_overlay]

theorem PasswordAlgorithmAttr.writes {a : PasswordAlgorithmAttr} {xs : Bytes}
    (hroom : attrHeaderSize + a.entry.wire.length ≤ xs.length) :
    (StunAttribute.encode a xs.length).1 = true ∧
      StunAttribute.writtenValue a xs = a.entry.wire := by
  have hlen := a.entry.length_wire
  refine StunAttribute.writes_of_stores (if_neg (by omega)) ?_ hlen.symm hroom
  intro ys
  rw [body, PasswordAlgorithmEntry.patch_stores, Nat.zero_add]

theorem PasswordAlgorithmsAttr.writes {a : PasswordAlgorithmsAttr} {xs : Bytes}
    (hroom : attrHeaderSize + a.wireValue.length ≤ xs.length) :
    (StunAttribute.encode a xs.length).1 = true ∧
      StunAttribute.writtenValue a xs = a.wireValue := by
  have hlen := a.length_wireValue
  refine StunAttribute.writes_of_stores (if_neg (by omega)) ?_ hlen.symm hroom
  intro ys
  rw [body, patch_entryStores, Nat.zero_add]
  rfl

/-! ## Reading a value whole -/

theorem PasswordAlgorithmEntry.flatMap_wire_cleared {rs : List WireAttr}
    (h : ∀ r ∈ rs, Full stunFormat r) :
    (rs.map cleared).flatMap (Tlv.wire stunFormat) =
      (rs.map ofRecord).flatMap PasswordAlgorithmEntry.wire := by
  rw [List.flatMap_map, List.flatMap_map]
  exact List.flatMap_congr fun r hr => wire_cleared (h r hr)

theorem PasswordAlgorithmEntry.Stream.length_eq {bs rest : Bytes} {rs : List WireAttr}
    (h : Stream bs rs rest) :
    bs.length = ((rs.map ofRecord).flatMap PasswordAlgorithmEntry.wire).length + rest.length := by
  rw [h.bytes, List.length_append, List.flatMap_map, List.length_flatMap, List.length_flatMap]
  congr 2
  apply List.map_congr_left
  intro r hr
  rw [length_wire_record (h.full r hr), PasswordAlgorithmEntry.length_wire]

/-- The value `bs` of a password attribute is read to its end: if it is read at all, it is entries
end to end, as many as the class allows, and they are encoded to the same bytes but for the padding.
Such a value is accepted. -/
structure ReadWhole {α : Type} [StunAttribute α] (entries : α → List PasswordAlgorithmEntry)
    (Legal : List WireAttr → Prop) (bs : Bytes) : Prop where
  read : ∀ tid (a : α), StunAttribute.decode tid bs = some a →
    StunAttribute.length a = bs.length ∧
      ∃ rs, Legal rs ∧ Stream bs rs [] ∧ entries a = rs.map ofRecord ∧
        ∀ xs : Bytes, attrHeaderSize + bs.length ≤ xs.length →
          (StunAttribute.encode a xs.length).1 = true ∧
            StunAttribute.writtenValue a xs = (rs.map cleared).flatMap (wire stunFormat)
  accepted : ∀ tid rs, Legal rs → Stream bs rs [] →
    ∃ a : α, StunAttribute.decode tid bs = some a

section Whole

variable {α : Type} [StunAttribute α] {entries : α → List PasswordAlgorithmEntry}
  {Legal : List WireAttr → Prop} {Leftover : Bytes → Prop}
  (hdecode : ∀ tid bs (a : α), StunAttribute.decode tid bs = some a ↔
    ∃ rs rest, Legal rs ∧ Stream bs rs rest ∧ Leftover rest ∧ entries a = rs.map ofRecord)
  (hexists : ∀ rs, Legal rs → ∃ a, entries a = rs.map ofRecord)
  (hlength : ∀ a, StunAttribute.length a =
    ((entries a).flatMap PasswordAlgorithmEntry.wire).length)
  (hwrites : ∀ a (xs : Bytes),
    attrHeaderSize + ((entries a).flatMap PasswordAlgorithmEntry.wire).length ≤ xs.length →
      (StunAttribute.encode a xs.length).1 = true ∧
        StunAttribute.writtenValue a xs = (entries a).flatMap PasswordAlgorithmEntry.wire)
  (hnil : Leftover [])

include hdecode hexists hlength hwrites hnil

/-- A class that reads entries and tolerates some leftovers reads a value whole exactly if there
are none. -/
theorem readWhole_iff (bs : Bytes) :
    ReadWhole entries Legal bs ↔
      ¬∃ rs rest, Legal rs ∧ Stream bs rs rest ∧ Leftover rest ∧ rest ≠ [] := by
  constructor
  · rintro h ⟨rs, rest, hlegal, hstream, hleft, hne⟩
    obtain ⟨a, ha⟩ := hexists rs hlegal
    have hdec := (hdecode (ByteArrayN.zero 12) bs a).2 ⟨rs, rest, hlegal, hstream, hleft, ha⟩
    have hlen := (h.read _ a hdec).1
    have hpos := List.length_pos_of_ne_nil hne
    rw [hlength, ha, hstream.length_eq] at hlen
    omega
  · intro hnone
    constructor
    · intro tid a ha
      obtain ⟨rs, rest, hlegal, hstream, hleft, hentries⟩ := (hdecode tid bs a).1 ha
      obtain rfl : rest = [] := by
        by_contra hne
        exact hnone ⟨rs, rest, hlegal, hstream, hleft, hne⟩
      have hlen := hstream.length_eq
      rw [List.length_nil, Nat.add_zero, ← hentries] at hlen
      refine ⟨(hlength a).trans hlen.symm, rs, hlegal, hstream, hentries, ?_⟩
      intro xs hroom
      rw [PasswordAlgorithmEntry.flatMap_wire_cleared hstream.full, ← hentries]
      exact hwrites a xs (hlen ▸ hroom)
    · intro tid rs hlegal hstream
      obtain ⟨a, ha⟩ := hexists rs hlegal
      exact ⟨a, (hdecode tid bs a).2 ⟨rs, [], hlegal, hstream, hnil, ha⟩⟩

end Whole

theorem PasswordAlgorithmsAttr.decode_eq_some_iff {bs : Bytes} {a : PasswordAlgorithmsAttr} :
    decode bs = some a ↔
      ∃ rs rest, True ∧ Stream bs rs rest ∧ rest.length < 4 ∧ a.entries = rs.map ofRecord := by
  simp only [true_and]
  obtain ⟨es⟩ := a
  rw [decode, Option.map_eq_some_iff]
  constructor
  · rintro ⟨es', hloop, ⟨⟩⟩
    obtain ⟨rs, rest, hstream, hrest, hes⟩ := decodeLoop_eq_some_iff.1 hloop
    exact ⟨rs, rest, hstream, hrest, hes⟩
  · rintro ⟨rs, rest, hstream, hrest, hes⟩
    exact ⟨es, decodeLoop_eq_some_iff.2 ⟨rs, rest, hstream, hrest, hes⟩, rfl⟩

theorem PasswordAlgorithmAttr.decode_iff_stream {bs : Bytes} {a : PasswordAlgorithmAttr} :
    decode bs = some a ↔
      ∃ rs rest, rs.length = 1 ∧ Stream bs rs rest ∧ True ∧ [a.entry] = rs.map ofRecord := by
  simp only [true_and]
  rw [decode_eq_some_iff]
  constructor
  · rintro ⟨r, rest, hr, rfl, rfl⟩
    have hnil : Stream rest [] rest := ⟨fun q hq => (List.not_mem_nil hq).elim, rfl⟩
    exact ⟨[r], rest, rfl, hnil.cons hr, rfl⟩
  · rintro ⟨rs, rest, hone, hstream, hentry⟩
    obtain ⟨r, rfl⟩ := List.length_eq_one_iff.1 hone
    obtain ⟨tail, hr, rfl, -⟩ := hstream.uncons
    obtain ⟨e⟩ := a
    obtain rfl : e = ofRecord r := by simpa using hentry
    exact ⟨r, tail, hr, rfl, rfl⟩

theorem PasswordAlgorithmsAttr.whole_iff (bs : Bytes) :
    ReadWhole PasswordAlgorithmsAttr.entries (fun _ => True) bs ↔
      ¬∃ rs rest, Stream bs rs rest ∧ rest.length < 4 ∧ rest ≠ [] := by
  have hwhole := readWhole_iff
    (fun _ _ (a : PasswordAlgorithmsAttr) => a.decode_eq_some_iff)
    (fun rs _ => ⟨⟨rs.map ofRecord⟩, rfl⟩) (fun a => a.length_wireValue.symm)
    (fun _ _ => PasswordAlgorithmsAttr.writes) (Nat.zero_lt_succ 3) bs
  simpa only [true_and] using hwhole

theorem PasswordAlgorithmAttr.whole_iff (bs : Bytes) :
    ReadWhole (fun a : PasswordAlgorithmAttr => [a.entry]) (fun rs => rs.length = 1) bs ↔
      ¬∃ r rest, Stream bs [r] rest ∧ rest ≠ [] := by
  have hone : ∀ rs : List WireAttr, rs.length = 1 →
      ∃ a : PasswordAlgorithmAttr, [a.entry] = rs.map ofRecord := by
    intro rs hrs
    obtain ⟨r, rfl⟩ := List.length_eq_one_iff.1 hrs
    exact ⟨⟨ofRecord r⟩, rfl⟩
  have hlength : ∀ a : PasswordAlgorithmAttr, StunAttribute.length a =
      ([a.entry].flatMap PasswordAlgorithmEntry.wire).length := by
    intro a
    rw [List.flatMap_singleton, a.entry.length_wire]
    rfl
  have hwrites : ∀ (a : PasswordAlgorithmAttr) (xs : Bytes),
      attrHeaderSize + ([a.entry].flatMap PasswordAlgorithmEntry.wire).length ≤ xs.length →
        (StunAttribute.encode a xs.length).1 = true ∧ StunAttribute.writtenValue a xs =
          [a.entry].flatMap PasswordAlgorithmEntry.wire := by
    intro a xs hroom
    rw [List.flatMap_singleton] at hroom ⊢
    exact a.writes hroom
  rw [readWhole_iff (fun _ _ (a : PasswordAlgorithmAttr) => a.decode_iff_stream) hone hlength
    hwrites trivial bs, not_iff_not]
  constructor
  · rintro ⟨rs, rest, hrs, hstream, -, hne⟩
    obtain ⟨r, rfl⟩ := List.length_eq_one_iff.1 hrs
    exact ⟨r, rest, hstream, hne⟩
  · rintro ⟨r, rest, hstream, hne⟩
    exact ⟨[r], rest, rfl, hstream, trivial, hne⟩

/-- **When a value of the password attributes is read whole**: one of PASSWORD-ALGORITHMS unless it
is entries and one to three bytes behind them, one of PASSWORD-ALGORITHM unless it is an entry and
anything behind it. -/
theorem password_read_whole_iff (bs : Bytes) :
    (ReadWhole PasswordAlgorithmsAttr.entries (fun _ => True) bs ↔
      ¬∃ rs rest, Stream bs rs rest ∧ rest.length < 4 ∧ rest ≠ []) ∧
    (ReadWhole (fun a : PasswordAlgorithmAttr => [a.entry]) (fun rs => rs.length = 1) bs ↔
      ¬∃ r rest, Stream bs [r] rest ∧ rest ≠ []) :=
  ⟨PasswordAlgorithmsAttr.whole_iff bs, PasswordAlgorithmAttr.whole_iff bs⟩

/-- An entry and a byte behind it are read by both attributes, which then have a shorter length. -/
theorem password_byte_unread :
    (∃ a : PasswordAlgorithmsAttr, PasswordAlgorithmsAttr.decode [0, 1, 0, 0, 0xFF] = some a ∧
      a.length ≠ [0, 1, 0, 0, 0xFF].length) ∧
    ∃ a : PasswordAlgorithmAttr, PasswordAlgorithmAttr.decode [0, 1, 0, 0, 0xFF] = some a ∧
      a.length ≠ [0, 1, 0, 0, 0xFF].length := by
  have hsingle : PasswordAlgorithmAttr.decode [0, 1, 0, 0, 0xFF] = some ⟨⟨.md5, []⟩⟩ := rfl
  refine ⟨⟨⟨[⟨.md5, []⟩]⟩, ?_, by decide⟩, ⟨_, hsingle, by decide⟩⟩
  rw [PasswordAlgorithmsAttr.decode, PasswordAlgorithmsAttr.decodeLoop_of_some hsingle,
    PasswordAlgorithmsAttr.decodeLoop_of_none rfl]
  rfl

/-! ## One format of entries -/

/-- A list of entries is written as each of them is by itself, one after the other. -/
theorem PasswordAlgorithmsAttr.writes_each {es : List PasswordAlgorithmEntry} {xs : Bytes}
    {ys : PasswordAlgorithmEntry → Bytes}
    (hxs : attrHeaderSize + PasswordAlgorithmsAttr.length ⟨es⟩ ≤ xs.length)
    (hys : ∀ e ∈ es, attrHeaderSize + PasswordAlgorithmAttr.length ⟨e⟩ ≤ (ys e).length) :
    (StunAttribute.encode (⟨es⟩ : PasswordAlgorithmsAttr) xs.length).1 = true ∧
      (∀ e ∈ es, (StunAttribute.encode (⟨e⟩ : PasswordAlgorithmAttr) (ys e).length).1 = true) ∧
      StunAttribute.writtenValue (⟨es⟩ : PasswordAlgorithmsAttr) xs =
        es.flatMap fun e => StunAttribute.writtenValue (⟨e⟩ : PasswordAlgorithmAttr) (ys e) := by
  rw [← length_wireValue] at hxs
  have hone : ∀ e ∈ es,
      (StunAttribute.encode (⟨e⟩ : PasswordAlgorithmAttr) (ys e).length).1 = true ∧
        StunAttribute.writtenValue (⟨e⟩ : PasswordAlgorithmAttr) (ys e) = e.wire := by
    intro e he
    apply PasswordAlgorithmAttr.writes
    rw [e.length_wire]
    exact hys e he
  obtain ⟨hok, hwritten⟩ := writes hxs
  refine ⟨hok, fun e he => (hone e he).1, ?_⟩
  rw [hwritten, wireValue]
  exact List.flatMap_congr fun e he => (hone e he).2.symm

/-- The first entry read of a list is read of the same value by itself. -/
theorem PasswordAlgorithmsAttr.first_of_decode {bs : Bytes} {a : PasswordAlgorithmsAttr}
    {e : PasswordAlgorithmEntry} (ha : decode bs = some a) (he : a.entries.head? = some e) :
    PasswordAlgorithmAttr.decode bs = some ⟨e⟩ := by
  obtain ⟨rs, rest, -, hstream, -, hentries⟩ := decode_eq_some_iff.1 ha
  rw [hentries, List.head?_map, Option.map_eq_some_iff] at he
  obtain ⟨r, hr, rfl⟩ := he
  obtain ⟨rs, rfl⟩ := List.head?_eq_some_iff.1 hr
  obtain ⟨tail, hfull, hbs, -⟩ := hstream.uncons
  exact PasswordAlgorithmAttr.decode_eq_some_iff.2 ⟨r, tail, hfull, hbs, rfl⟩

/-- **PASSWORD-ALGORITHM and PASSWORD-ALGORITHMS have one format of entries.** A list of entries is
written as each of them is by itself, one after the other, and the first entry read of a list is
what is read of the same value by itself. -/
theorem password_entries_agree :
    (∀ (es : List PasswordAlgorithmEntry) (xs : Bytes) (ys : PasswordAlgorithmEntry → Bytes),
      attrHeaderSize + PasswordAlgorithmsAttr.length ⟨es⟩ ≤ xs.length →
      (∀ e ∈ es, attrHeaderSize + PasswordAlgorithmAttr.length ⟨e⟩ ≤ (ys e).length) →
      (StunAttribute.encode (⟨es⟩ : PasswordAlgorithmsAttr) xs.length).1 = true ∧
      (∀ e ∈ es, (StunAttribute.encode (⟨e⟩ : PasswordAlgorithmAttr) (ys e).length).1 = true) ∧
      StunAttribute.writtenValue (⟨es⟩ : PasswordAlgorithmsAttr) xs =
        es.flatMap fun e => StunAttribute.writtenValue (⟨e⟩ : PasswordAlgorithmAttr) (ys e)) ∧
    ∀ (bs : Bytes) (a : PasswordAlgorithmsAttr) (e : PasswordAlgorithmEntry),
      PasswordAlgorithmsAttr.decode bs = some a → a.entries.head? = some e →
        PasswordAlgorithmAttr.decode bs = some ⟨e⟩ :=
  ⟨fun _ _ _ => PasswordAlgorithmsAttr.writes_each,
    fun _ _ _ => PasswordAlgorithmsAttr.first_of_decode⟩

/-- MD5 and SHA-256 with three bytes of parameters: written in twelve bytes, and MD5 is read. -/
theorem password_entries_agree_two :
    StunAttribute.writtenValue (⟨[⟨.md5, []⟩, ⟨.sha256, [1, 2, 3]⟩]⟩ : PasswordAlgorithmsAttr)
        (List.replicate 16 0) =
      StunAttribute.writtenValue (⟨⟨.md5, []⟩⟩ : PasswordAlgorithmAttr) (List.replicate 12 0) ++
        StunAttribute.writtenValue (⟨⟨.sha256, [1, 2, 3]⟩⟩ : PasswordAlgorithmAttr)
          (List.replicate 12 0) ∧
    PasswordAlgorithmAttr.decode [0, 1, 0, 0] = some ⟨⟨.md5, []⟩⟩ := by
  have hlist : PasswordAlgorithmsAttr.decode [0, 1, 0, 0] = some ⟨[⟨.md5, []⟩]⟩ := by
    have hone : PasswordAlgorithmAttr.decode [0, 1, 0, 0] = some ⟨⟨.md5, []⟩⟩ := rfl
    rw [PasswordAlgorithmsAttr.decode, PasswordAlgorithmsAttr.decodeLoop_of_some hone,
      PasswordAlgorithmsAttr.decodeLoop_of_none rfl]
    rfl
  have hwritten := password_entries_agree.1 [⟨.md5, []⟩, ⟨.sha256, [1, 2, 3]⟩]
    (List.replicate 16 0) (fun _ => List.replicate 12 0) (by decide) (by decide)
  exact ⟨hwritten.2.2, password_entries_agree.2 _ _ _ hlist rfl⟩

end Stunxx
