import Stunxx.Decoder
import Stunxx.Wire

/-!
# The decoding loop is a walk of the attribute stream

`decodeLoop` reads a buffer by index and keeps an offset; `Tlv.walk` reads the attribute bytes as a
list. `decodeLoop_eq` identifies them: the loop never faults, it returns what the walk returns, and
it accepts the records the walk reports. What accepting a list of records does to a decoder is
said once, by the lemmas on `acceptAll`, so `decode` on a buffer is known as soon as the buffer's
header is (`decode_of_framed`, `decode_of_not_framed`).
-/

namespace Stunxx

open Overlay Tlv

/-! ## Checked reads -/

theorem readByte_of_some {buffer : Bytes} {i : Nat} {b : UInt8} (h : buffer[i]? = some b) :
    readByte buffer i = .ok b := by
  rw [readByte, h]

theorem readBe16At_of_some {buffer : Bytes} {i : Nat} {b0 b1 : UInt8} (h0 : buffer[i]? = some b0)
    (h1 : buffer[i + 1]? = some b1) : readBe16At buffer i = .ok (readBe16 b0 b1) := by
  rw [readBe16At, readByte_of_some h0, readByte_of_some h1]
  rfl

theorem readBe32At_of_some {buffer : Bytes} {i : Nat} {b0 b1 b2 b3 : UInt8}
    (h0 : buffer[i]? = some b0) (h1 : buffer[i + 1]? = some b1) (h2 : buffer[i + 2]? = some b2)
    (h3 : buffer[i + 3]? = some b3) :
    readBe32At buffer i = .ok (readBe32 b0 b1 b2 b3) := by
  rw [readBe32At, readByte_of_some h0, readByte_of_some h1, readByte_of_some h2,
    readByte_of_some h3]
  rfl

@[simp] theorem ok_bind {α β : Type} (a : α) (f : α → Except Fault β) : (.ok a >>= f) = f a := rfl

theorem subSize_of_le {a b : Nat} (h : b ≤ a) : subSize a b = .ok (a - b) := if_pos h

/-- A 16-bit field that is written somewhere in a buffer is read back there. -/
theorem readBe16At_of_slice {buffer : Bytes} {i : Nat} {v : UInt16}
    (h : slice buffer i 2 = writeBe16 v) : readBe16At buffer i = .ok v := by
  have hread := readBe16_of_writeBe16 (v := v) rfl
  have h0 := congrArg (fun bs => bs[0]?) h
  have h1 := congrArg (fun bs => bs[1]?) h
  simp only [getElem?_slice, writeBe16, Nat.add_zero] at h0 h1
  rw [readBe16At_of_some h0 h1, hread]

theorem readBe32At_of_slice {buffer : Bytes} {i : Nat} {v : UInt32}
    (h : slice buffer i 4 = writeBe32 v) : readBe32At buffer i = .ok v := by
  have hread := readBe32_of_writeBe32 (v := v) rfl
  have h0 := congrArg (fun bs => bs[0]?) h
  have h1 := congrArg (fun bs => bs[1]?) h
  have h2 := congrArg (fun bs => bs[2]?) h
  have h3 := congrArg (fun bs => bs[3]?) h
  simp only [getElem?_slice, writeBe32, Nat.add_zero] at h0 h1 h2 h3
  rw [readBe32At_of_some h0 h1 h2 h3, hread]

/-- Reading the four header fields of a buffer whose header is known. -/
theorem reads_of_take {buffer : Bytes} {h : StunHeader} (htake : buffer.take 20 = h.wire) :
    readBe16At buffer 0 = .ok h.msgType ∧ readBe16At buffer 2 = .ok h.msgLength ∧
      readBe32At buffer 4 = .ok h.magicCookie ∧
      readSpan buffer 8 stunTransactionIdSize = .ok h.transactionId := by
  have htid : h.transactionId.val.length = 12 := h.transactionId.property
  have hlen := congrArg List.length htake
  rw [List.length_take, StunHeader.length_wire] at hlen
  have hslice : ∀ {i n : Nat}, i + n ≤ 20 → slice buffer i n = slice h.wire i n := by
    intro i n hi
    rw [← slice_take buffer hi, htake]
  have htail : slice buffer 8 12 = h.transactionId.val := by
    rw [hslice (by omega)]
    exact List.take_of_length_le htid.le
  refine ⟨readBe16At_of_slice (hslice (by omega)), readBe16At_of_slice (hslice (by omega)),
    readBe32At_of_slice (hslice (by omega)), ?_⟩
  rw [readSpan, dif_pos (by simp only [stunTransactionIdSize]; omega)]
  exact congrArg Except.ok (Subtype.ext htail)

/-! ## Accepting a list of attributes -/

namespace Decoder

/-- Accept attributes one after the other. -/
def acceptAll (d : Decoder) (rs : List WireAttr) : Decoder :=
  rs.foldl (fun d r => d.accept r.tag (UInt16.ofNat r.value.length)) d

@[simp] theorem acceptAll_nil (d : Decoder) : d.acceptAll [] = d := rfl

@[simp] theorem acceptAll_cons (d : Decoder) (r : WireAttr) (rs : List WireAttr) :
    d.acceptAll (r :: rs) = (d.accept r.tag (UInt16.ofNat r.value.length)).acceptAll rs := rfl

/-- What accepting attributes leaves: their headers appended, the unknown required types appended,
the offset behind the last of them. -/
theorem acceptAll_eq (d : Decoder) {rs : List WireAttr}
    (h : ∀ r ∈ rs, r.value.length < 65536) :
    d.acceptAll rs =
      { d with
        attributes := ⟨d.attributes.attributes ++ wireHeaders d.offset rs⟩
        unknownRequired := d.unknownRequired ++ unknownTypes rs
        offset := d.offset + (rs.map (stride stunFormat)).sum } := by
  induction rs generalizing d with
  | nil => simp only [acceptAll_nil, wireHeaders, layout, unknownTypes, List.map_nil,
      List.filter_nil, List.append_nil, List.sum_nil, Nat.add_zero]
  | cons r rs ih =>
    have hlen : (UInt16.ofNat r.value.length).toNat = r.value.length := by
      rw [UInt16.toNat_ofNat', Nat.mod_eq_of_lt (h r List.mem_cons_self)]
    rw [acceptAll_cons, ih _ fun q hq => h q (List.mem_cons_of_mem r hq)]
    simp only [accept, AttributeTable.append, wireHeaders, layout, unknownTypes, List.map_cons,
      List.filter_cons, List.sum_cons, List.append_assoc, List.singleton_append, stride_stunFormat,
      hlen, AttrHeader.ofPlace, headSize_stunFormat, attrHeaderSize, Nat.add_assoc]
    split <;> simp only [List.append_assoc, List.singleton_append]

/-! ## The loop -/

theorem decodeLoop_of_lt {messageEnd : Nat} {d : Decoder}
    (h : messageEnd < d.offset + attrHeaderSize) : decodeLoop messageEnd d = .ok (true, d) := by
  rw [decodeLoop, dif_neg (by omega)]
  rfl

theorem readHead_cons (b0 b1 b2 b3 : UInt8) (rest : Bytes) :
    stunFormat.readHead (b0 :: b1 :: b2 :: b3 :: rest) =
      (readBe16 b0 b1, (readBe16 b2 b3).toNat) := rfl

/-- One turn of the loop, when the head of an attribute is in front of it. -/
theorem decodeLoop_of_head {messageEnd : Nat} {d : Decoder} (hend : messageEnd ≤ d.buffer.length)
    {b0 b1 b2 b3 : UInt8} {rest : Bytes}
    (hbs : (d.buffer.take messageEnd).drop d.offset = b0 :: b1 :: b2 :: b3 :: rest) :
    decodeLoop messageEnd d =
      if rest.length < (readBe16 b2 b3).toNat then .ok (false, d)
      else decodeLoop messageEnd (d.accept (readBe16 b0 b1) (readBe16 b2 b3)) := by
  have hlen := congrArg List.length hbs
  simp only [List.length_drop, List.length_take, List.length_cons] at hlen
  have hget : ∀ k b, (b0 :: b1 :: b2 :: b3 :: rest)[k]? = some b →
      d.buffer[d.offset + k]? = some b := by
    intro k b hk
    rw [← hbs, List.getElem?_drop, List.getElem?_take] at hk
    split at hk
    · exact hk
    · cases hk
  have htype := readBe16At_of_some (hget 0 b0 rfl) (hget 1 b1 rfl)
  have hsize := readBe16At_of_some (hget 2 b2 rfl) (hget 3 b3 rfl)
  have hroom : messageEnd - d.offset - attrHeaderSize = rest.length := by
    simp only [attrHeaderSize]
    omega
  have hfit : d.offset + attrHeaderSize ≤ messageEnd := by
    simp only [attrHeaderSize]
    omega
  rw [Nat.add_zero] at htype
  rw [decodeLoop, dif_pos hfit, htype, hsize, subSize_of_le (by omega)]
  simp only [ok_bind]
  rw [subSize_of_le (by omega), hroom]
  rfl

/-- **The loop is the walk**: it never faults, its verdict is the walk's, and it accepts the
attributes the walk reports, whether or not it succeeds in the end. -/
theorem decodeLoop_eq (messageEnd : Nat) (d : Decoder) (hend : messageEnd ≤ d.buffer.length) :
    decodeLoop messageEnd d =
      .ok ((walk stunFormat ((d.buffer.take messageEnd).drop d.offset)).1,
        d.acceptAll (walk stunFormat ((d.buffer.take messageEnd).drop d.offset)).2) := by
  induction hbs : (d.buffer.take messageEnd).drop d.offset using walk_induction stunFormat
    generalizing d with
  | stop bs hlt =>
    have hlen := congrArg List.length hbs
    simp only [List.length_drop, List.length_take, headSize_stunFormat] at hlen hlt
    rw [walk_of_lt stunFormat hlt, decodeLoop_of_lt (by simp only [attrHeaderSize]; omega)]
    rfl
  | short bs hle hn =>
    match bs, hle with
    | b0 :: b1 :: b2 :: b3 :: rest, hle =>
      rw [decodeLoop_of_head hend hbs, walk_of_short stunFormat hle hn, if_pos]
      · rfl
      · exact hn
  | room bs hle hn ih =>
    match bs, hle with
    | b0 :: b1 :: b2 :: b3 :: rest, hle =>
      have hvalue := length_firstRecord_value stunFormat hn
      have hstride := stride_stunFormat (firstRecord stunFormat (b0 :: b1 :: b2 :: b3 :: rest))
      rw [hvalue, readHead_cons] at hstride
      have hnext : (d.buffer.take messageEnd).drop
          (d.accept (readBe16 b0 b1) (readBe16 b2 b3)).offset =
          (b0 :: b1 :: b2 :: b3 :: rest).drop
            (stride stunFormat (firstRecord stunFormat (b0 :: b1 :: b2 :: b3 :: rest))) := by
        rw [hstride, ← hbs, List.drop_drop]
        rfl
      rw [decodeLoop_of_head hend hbs, walk_of_room stunFormat hle hn, if_neg, acceptAll_cons,
        hvalue, readHead_cons, UInt16.ofNat_toNat]
      · exact ih (d.accept (readBe16 b0 b1) (readBe16 b2 b3)) hend hnext
      · exact hn

/-! ## The whole of `decode` -/

theorem decode_of_short {d : Decoder} (h : d.buffer.length < 20) : d.decode = .ok (false, d) :=
  if_pos h

/-- `decode` on a buffer whose header is known. -/
theorem decode_of_take {d : Decoder} {h : StunHeader} (htake : d.buffer.take 20 = h.wire) :
    d.decode =
      if h.magicCookie ≠ magicCookie then .ok (false, { d with stunHeader := h })
      else if d.buffer.length < 20 + h.msgLength.toNat then
        .ok (false, { d with stunHeader := h })
      else decodeLoop (20 + h.msgLength.toNat) { d with stunHeader := h, offset := 20 } := by
  obtain ⟨htype, hlength, hcookie, htid⟩ := reads_of_take htake
  have hlen := congrArg List.length htake
  rw [List.length_take, StunHeader.length_wire] at hlen
  rw [decode, if_neg (by simp only [stunHeaderSize]; omega), htype, hlength, hcookie, htid]
  rfl

/-- `decode` on a buffer that starts with a message: it reads the announced attribute bytes. -/
theorem decode_of_framed {d : Decoder} {h : StunHeader} (hf : Framed d.buffer h) :
    d.decode =
      .ok ((walk stunFormat (attrBytes d.buffer h)).1,
        acceptAll { d with stunHeader := h, offset := 20 }
          (walk stunFormat (attrBytes d.buffer h)).2) := by
  have hroom := hf.room
  have hattrs : attrBytes d.buffer h = (d.buffer.take (20 + h.msgLength.toNat)).drop 20 := by
    rw [List.drop_take, Nat.add_sub_cancel_left]
    rfl
  rw [decode_of_take hf.take_eq, if_neg (not_not.2 hf.cookie), if_neg (by omega), hattrs]
  exact decodeLoop_eq _ { d with stunHeader := h, offset := 20 } hroom

/-- `decode` on any other buffer: it returns false, and no attribute was accepted. -/
theorem decode_of_not_framed {d : Decoder} (hf : ¬∃ h, Framed d.buffer h) :
    ∃ h, d.decode = .ok (false, { d with stunHeader := h }) := by
  by_cases hlen : d.buffer.length < 20
  · exact ⟨d.stunHeader, decode_of_short hlen⟩
  · obtain ⟨h, htake⟩ := StunHeader.exists_wire (Nat.not_lt.1 hlen)
    refine ⟨h, ?_⟩
    rw [decode_of_take htake]
    by_cases hcookie : h.magicCookie = magicCookie
    · rw [if_neg (not_not.2 hcookie), if_pos]
      by_contra hroom
      exact hf ⟨h, htake, hcookie, by omega⟩
    · rw [if_pos hcookie]

/-- `decode` never faults. -/
theorem decode_total (d : Decoder) : ∃ ok e, d.decode = .ok (ok, e) := by
  by_cases hf : ∃ h, Framed d.buffer h
  · obtain ⟨h, hf⟩ := hf
    exact ⟨_, _, decode_of_framed hf⟩
  · obtain ⟨h, hfalse⟩ := decode_of_not_framed hf
    exact ⟨_, _, hfalse⟩

/-- The decoder `parse` returns for a message. -/
def parsed (buffer : Bytes) (h : StunHeader) (rs : List WireAttr) : Decoder where
  buffer := buffer
  stunHeader := h
  attributes := ⟨AttributeTable.new.attributes ++ wireHeaders 20 rs⟩
  unknownRequired := unknownTypes rs
  offset := 20 + (rs.map (stride stunFormat)).sum

/-- A fresh decoder that has accepted the attributes a walk reports. -/
theorem acceptAll_new {buffer : Bytes} {h : StunHeader} {rs : List WireAttr}
    (hrs : ∀ r ∈ rs, r.value.length < 65536) :
    acceptAll { new buffer with stunHeader := h, offset := 20 } rs = parsed buffer h rs := by
  rw [acceptAll_eq _ hrs]
  rfl

theorem decode_new_of_framed {buffer : Bytes} {h : StunHeader} (hf : Framed buffer h) :
    (new buffer).decode =
      .ok ((walk stunFormat (attrBytes buffer h)).1,
        parsed buffer h (walk stunFormat (attrBytes buffer h)).2) := by
  rw [decode_of_framed (d := new buffer) hf]
  exact congrArg (fun d => Except.ok (_, d)) (acceptAll_new fun _ => walk_value_lt stunFormat)

theorem decode_new_of_grammar {buffer : Bytes} {h : StunHeader} {rs : List WireAttr}
    (hg : Grammar buffer h rs) : (new buffer).decode = .ok (true, parsed buffer h rs) := by
  rw [decode_new_of_framed hg.toFramed, hg.tiling.walk_eq stunFormat]

/-- **`decode` accepts exactly the messages**, and leaves the decoder that `parsed` describes. -/
theorem decode_new_eq_true_iff {buffer : Bytes} {d : Decoder} :
    (new buffer).decode = .ok (true, d) ↔ ∃ h rs, Grammar buffer h rs ∧ d = parsed buffer h rs := by
  constructor
  · intro hdec
    by_cases hf : ∃ h, Framed buffer h
    · obtain ⟨h, hf⟩ := hf
      rw [decode_new_of_framed hf] at hdec
      obtain ⟨hok, rfl⟩ := Prod.mk.inj (Except.ok.inj hdec)
      exact ⟨h, _, ⟨hf, .of_walk stunFormat (Prod.ext hok rfl)⟩, rfl⟩
    · obtain ⟨h, hfalse⟩ := decode_of_not_framed (d := new buffer) hf
      rw [hfalse] at hdec
      cases hdec
  · rintro ⟨h, rs, hg, rfl⟩
    exact decode_new_of_grammar hg

theorem parse_eq_some_iff {buffer : Bytes} {d : Decoder} :
    parse buffer = .ok (some d) ↔ ∃ h rs, Grammar buffer h rs ∧ d = parsed buffer h rs := by
  rw [← decode_new_eq_true_iff, parse]
  cases hdec : (new buffer).decode with
  | error fault => constructor <;> intro h <;> cases h
  | ok r =>
    obtain ⟨ok, d'⟩ := r
    cases ok
    · constructor <;> intro h <;> cases h
    · constructor
      · intro h
        cases h
        rfl
      · intro h
        cases h
        rfl

theorem parse_eq_none_iff {buffer : Bytes} :
    parse buffer = .ok none ↔ ¬∃ h rs, Grammar buffer h rs := by
  obtain ⟨ok, d, hdec⟩ := decode_total (new buffer)
  constructor
  · rintro hnone ⟨h, rs, hg⟩
    rw [parse_eq_some_iff.2 ⟨h, rs, hg, rfl⟩] at hnone
    cases hnone
  · intro hnot
    cases ok with
    | false => rw [parse, hdec]; rfl
    | true =>
      obtain ⟨h, rs, hg, -⟩ := decode_new_eq_true_iff.1 hdec
      exact absurd ⟨h, rs, hg⟩ hnot

end Decoder

end Stunxx
