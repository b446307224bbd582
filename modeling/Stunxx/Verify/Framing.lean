import Stunxx.Verify.Lookup

/-!
# The grammar and framing

`decode` accepts the messages of the wire format and no other buffer, and reports their unknown
comprehension-required types. A message cut out of a stream by `parseHeader` and the whole stream
decode alike: the attribute bytes are those the header announces, whatever follows them.
-/

namespace Stunxx

open Overlay Tlv Digits

namespace Decoder

/-! ## The grammar -/

/-- The value of the length field of a buffer. -/
def lengthField (buffer : Bytes) : Nat := beValue (slice buffer 2 2)

theorem lengthField_eq {buffer : Bytes} {h : StunHeader} (htake : buffer.take 20 = h.wire) :
    lengthField buffer = h.msgLength.toNat := by
  rw [lengthField, (slice_header htake).1, writeBe16_eq, beValue_beBytes_of_lt h.msgLength.toNat_lt]

/-- A buffer is framed when it has room for a header, the cookie in it and the length in it. -/
theorem framed_iff {buffer : Bytes} :
    (∃ h, Framed buffer h) ↔
      20 ≤ buffer.length ∧ slice buffer 4 4 = writeBe32 magicCookie ∧
        20 + lengthField buffer ≤ buffer.length := by
  constructor
  · rintro ⟨h, hf⟩
    have hroom := hf.room
    refine ⟨by omega, ?_, ?_⟩
    · rw [(slice_header hf.take_eq).2, hf.cookie]
    · rwa [lengthField_eq hf.take_eq]
  · rintro ⟨hlen, hcookie, hroom⟩
    obtain ⟨h, htake⟩ := StunHeader.exists_wire hlen
    rw [(slice_header htake).2] at hcookie
    rw [lengthField_eq htake] at hroom
    exact ⟨h, htake, writeBe32_inj hcookie, hroom⟩

theorem grammar_iff {buffer : Bytes} {rs : List WireAttr} :
    (∃ h, Grammar buffer h rs) ↔
      (20 ≤ buffer.length ∧ slice buffer 4 4 = writeBe32 magicCookie ∧
        20 + lengthField buffer ≤ buffer.length) ∧
        Tiling stunFormat (slice buffer 20 (lengthField buffer)) rs := by
  rw [← framed_iff]
  constructor
  · rintro ⟨h, hg⟩
    refine ⟨⟨h, hg.toFramed⟩, ?_⟩
    rw [lengthField_eq hg.take_eq]
    exact hg.tiling
  · rintro ⟨⟨h, hf⟩, htiling⟩
    rw [lengthField_eq hf.take_eq] at htiling
    exact ⟨h, hf, htiling⟩

/-- The types the loop collects are those below 0x8000 that no enumerator names. -/
theorem unknownTypes_eq (rs : List WireAttr) :
    unknownTypes rs =
      (rs.map Record.tag).filter fun t =>
        decide (t < 0x8000) && (StunAttrType.ofCode? t).isNone := by
  apply List.filter_congr
  intro t _
  congr 1
  · rw [Bool.eq_iff_iff, isComprehensionRequired_iff, decide_eq_true_eq]
  · rw [Bool.eq_iff_iff, Bool.not_eq_true', ← Bool.not_eq_true, isKnownAttrType_iff,
      Option.isNone_iff_eq_none]
    constructor
    · intro hknown
      cases hcode : StunAttrType.ofCode? t with
      | none => rfl
      | some k => exact absurd ⟨k, by simpa using List.find?_some hcode⟩ hknown
    · rintro hnone ⟨k, rfl⟩
      rw [StunAttrType.ofCode?_code] at hnone
      cases hnone

/-- **`decode` accepts exactly the grammar**, the decomposition is unique, and the reported types
are the unknown comprehension-required ones of the decomposition, in order. -/
theorem decode_accepts_iff (buffer : Bytes) :
    ((∃ d, (new buffer).decode = .ok (true, d)) ↔
      (20 ≤ buffer.length ∧ slice buffer 4 4 = writeBe32 magicCookie ∧
        20 + lengthField buffer ≤ buffer.length) ∧
        ∃ rs, Tiling stunFormat (slice buffer 20 (lengthField buffer)) rs) ∧
    (∀ rs rs', Tiling stunFormat (slice buffer 20 (lengthField buffer)) rs →
      Tiling stunFormat (slice buffer 20 (lengthField buffer)) rs' → rs = rs') ∧
    ∀ d rs, (new buffer).decode = .ok (true, d) →
      Tiling stunFormat (slice buffer 20 (lengthField buffer)) rs →
      d.unknownRequired = (rs.map Record.tag).filter fun t =>
        decide (t < 0x8000) && (StunAttrType.ofCode? t).isNone := by
  refine ⟨⟨?_, ?_⟩, fun rs rs' => Tiling.unique stunFormat, ?_⟩
  · rintro ⟨d, hdec⟩
    obtain ⟨h, rs, hg, -⟩ := decode_new_eq_true_iff.1 hdec
    obtain ⟨hframed, htiling⟩ := grammar_iff.1 ⟨h, hg⟩
    exact ⟨hframed, rs, htiling⟩
  · rintro ⟨hframed, rs, htiling⟩
    obtain ⟨h, hg⟩ := grammar_iff.2 ⟨hframed, htiling⟩
    exact ⟨_, decode_new_of_grammar hg⟩
  · intro d rs hdec htiling
    obtain ⟨h, qs, hg, rfl⟩ := decode_new_eq_true_iff.1 hdec
    obtain ⟨-, hqs⟩ := grammar_iff.1 ⟨h, hg⟩
    rw [htiling.unique stunFormat hqs, ← unknownTypes_eq]
    rfl

/-! ## The size of a message -/

/-- The attributes of a message take a multiple of four bytes. -/
theorem four_dvd_sum_stride (rs : List WireAttr) : 4 ∣ (rs.map (stride stunFormat)).sum := by
  induction rs with
  | nil => exact Nat.dvd_zero 4
  | cons r rs ih =>
    rw [List.map_cons, List.sum_cons, stride_stunFormat]
    exact Nat.dvd_add (Nat.dvd_add (Nat.dvd_refl 4) (four_dvd_roundUp4 _)) ih

/-- **`totalLength` is the size of the message exactly when the announced length is a multiple of
four.** Otherwise bytes are left over, or padding that the message does not have is counted. -/
theorem totalLength_eq_iff {buffer : Bytes} {d : Decoder}
    (hdec : (new buffer).decode = .ok (true, d)) :
    (d.totalLength = 20 + d.messageLength.toNat ∧ d.totalLength ≤ buffer.length) ↔
      4 ∣ lengthField buffer := by
  obtain ⟨h, rs, hg, rfl⟩ := decode_new_eq_true_iff.1 hdec
  have hroom := hg.room
  have hpad : ∀ n, stunFormat.pad n < 4 := by
    intro n
    have hlt := roundUp4_lt n
    rw [pad_stunFormat]
    omega
  have hnear := hg.tiling.sum_stride_near stunFormat (Nat.le_refl 4) hpad
  obtain ⟨k, hk⟩ := four_dvd_sum_stride rs
  rw [hg.length_attrBytes, hk] at hnear
  rw [lengthField_eq hg.take_eq]
  unfold totalLength messageLength
  simp only [parsed, hk]
  omega

theorem totalLength_eq_iff_priority :
    ((parsed priorityMessage priorityHeader priorityAttrs).totalLength = 20 + 8 ∧
      (parsed priorityMessage priorityHeader priorityAttrs).totalLength ≤
        priorityMessage.length) ↔ 4 ∣ lengthField priorityMessage :=
  totalLength_eq_iff (decode_new_of_grammar priorityMessage_grammar)

/-- A message of one byte, which no attribute takes up. -/
def oneByteHeader : StunHeader := ⟨0x0001, 1, magicCookie, ByteArrayN.zero 12⟩

/-- It decodes, and its `totalLength` leaves the byte out. -/
theorem totalLength_ne :
    ¬∀ d, (new (oneByteHeader.wire ++ [0])).decode = .ok (true, d) →
      d.totalLength = 20 + d.messageLength.toNat ∧
        d.totalLength ≤ (oneByteHeader.wire ++ [0]).length := by
  intro hall
  have hframed : Framed (oneByteHeader.wire ++ [0]) oneByteHeader := by
    refine ⟨rfl, rfl, ?_⟩
    rw [List.length_append, StunHeader.length_wire]
    exact Nat.le_refl 21
  have hrest : Tiling stunFormat (attrBytes (oneByteHeader.wire ++ [0]) oneByteHeader) [] :=
    .rest (by rw [hframed.length_attrBytes]; decide)
  have hlength := (hall _ (decode_new_of_grammar ⟨hframed, hrest⟩)).1
  exact absurd hlength (by decide)

/-! ## Framing -/

/-- `parseHeader` agrees with the header fields `decode` reads. -/
theorem parseHeader_eq_some_iff {buffer : Bytes} {h : StunHeader} :
    parseHeader buffer = .ok (some h) ↔
      buffer.take 20 = h.wire ∧ h.magicCookie = magicCookie := by
  by_cases hlen : buffer.length < 20
  · have hnone : parseHeader buffer = .ok none := if_pos hlen
    rw [hnone]
    constructor
    · intro hparse
      cases hparse
    · rintro ⟨htake, -⟩
      have hsize := congrArg List.length htake
      rw [List.length_take, StunHeader.length_wire] at hsize
      omega
  · obtain ⟨g, htake⟩ := StunHeader.exists_wire (Nat.not_lt.1 hlen)
    obtain ⟨htype, hlength, hcookie, htid⟩ := reads_of_take htake
    have hparse : parseHeader buffer =
        if g.magicCookie ≠ magicCookie then .ok none else .ok (some g) := by
      rw [parseHeader, stunHeaderSize, if_neg hlen, htype, hlength, hcookie, htid]
      rfl
    rw [hparse]
    constructor
    · intro hsome
      by_cases hg : g.magicCookie = magicCookie
      · rw [if_neg (not_not.2 hg)] at hsome
        cases hsome
        exact ⟨htake, hg⟩
      · rw [if_pos hg] at hsome
        cases hsome
    · rintro ⟨htake', hg⟩
      obtain rfl := StunHeader.wire_inj (htake.symm.trans htake')
      rw [if_neg (not_not.2 hg)]

/-- Two decoders that agree on everything a caller can ask of a message. -/
structure SameMessage (d e : Decoder) : Prop where
  header : d.stunHeader = e.stunHeader
  unknownRequired : d.unknownRequired = e.unknownRequired
  totalLength : d.totalLength = e.totalLength
  getAttribute : ∀ (α : Type) [StunAttribute α], d.getAttribute α = e.getAttribute α
  getAttributes : ∀ (α : Type) [StunAttribute α], d.getAttributes α = e.getAttributes α

/-- Buffers that hold the same message decode to the same message. -/
theorem sameMessage_parsed {b c : Bytes} {h : StunHeader} {rs : List WireAttr}
    (hb : Grammar b h rs) (hc : Grammar c h rs) :
    SameMessage (parsed b h rs) (parsed c h rs) where
  header := rfl
  unknownRequired := rfl
  totalLength := rfl
  getAttribute α _ := by rw [getAttribute_parsed α hb, getAttribute_parsed α hc]
  getAttributes α _ := by rw [getAttributes_parsed α hb, getAttributes_parsed α hc]

/-- What follows the announced bytes does not matter to the frame. -/
theorem Framed.append {b : Bytes} {h : StunHeader} (hf : Framed b h) (x : Bytes) :
    Framed (b ++ x) h ∧ attrBytes (b ++ x) h = attrBytes b h := by
  have hroom := hf.room
  have htakes : ∀ {n : Nat}, n ≤ b.length → (b ++ x).take n = b.take n := by
    intro n hn
    rw [List.take_append_of_le_length hn]
  refine ⟨⟨?_, hf.cookie, ?_⟩, ?_⟩
  · rw [htakes (by omega), hf.take_eq]
  · rw [List.length_append]
    omega
  · exact slice_congr_take (htakes hroom) (Nat.le_refl _)

theorem Framed.take {b : Bytes} {h : StunHeader} (hf : Framed b h) :
    Framed (b.take (20 + h.msgLength.toNat)) h := by
  have hroom := hf.room
  refine ⟨?_, hf.cookie, ?_⟩
  · rw [List.take_take, Nat.min_eq_left (by omega), hf.take_eq]
  · rw [List.length_take]
    omega

/-- **Framing**: a buffer shorter than its header announces is rejected; otherwise the announced
prefix and the prefix with any bytes behind it decode to the same verdict and the same message. -/
theorem decode_framing {b : Bytes} {h : StunHeader} (hparse : parseHeader b = .ok (some h)) :
    (b.length < 20 + h.msgLength.toNat → ∃ d, (new b).decode = .ok (false, d)) ∧
    (20 + h.msgLength.toNat ≤ b.length → ∀ x : Bytes, ∃ ok d e,
      (new (b.take (20 + h.msgLength.toNat))).decode = .ok (ok, d) ∧
      (new (b.take (20 + h.msgLength.toNat) ++ x)).decode = .ok (ok, e) ∧
      (ok = true → d.stunHeader = h ∧ SameMessage d e)) := by
  obtain ⟨htake, hcookie⟩ := parseHeader_eq_some_iff.1 hparse
  constructor
  · intro hshort
    have hnot : ¬∃ g, Framed b g := by
      rintro ⟨g, hf⟩
      obtain rfl := StunHeader.wire_inj (hf.take_eq.symm.trans htake)
      have hroom := hf.room
      omega
    obtain ⟨g, hdec⟩ := decode_of_not_framed (d := new b) hnot
    exact ⟨_, hdec⟩
  · intro hroom x
    have hcut := Framed.take (b := b) ⟨htake, hcookie, hroom⟩
    obtain ⟨hlong, hattrs⟩ := Framed.append hcut x
    have hdec := decode_new_of_framed hlong
    rw [hattrs] at hdec
    refine ⟨_, _, _, decode_new_of_framed hcut, hdec, ?_⟩
    intro hok
    have htiling := (Tlv.walk_eq_true_iff stunFormat).1 (Prod.ext hok rfl)
    exact ⟨rfl, sameMessage_parsed ⟨hcut, htiling⟩ ⟨hlong, by rwa [hattrs]⟩⟩

/-- Without its last byte the message is rejected, with any bytes behind it it is accepted. -/
theorem decode_framing_priority :
    (∃ d, (new (priorityMessage.take 27)).decode = .ok (false, d)) ∧
    ∀ x : Bytes, ∃ d e, (new priorityMessage).decode = .ok (true, d) ∧
      (new (priorityMessage ++ x)).decode = .ok (true, e) ∧
      d.stunHeader = priorityHeader ∧ SameMessage d e := by
  have hparse : parseHeader (priorityMessage.take 27) = .ok (some priorityHeader) :=
    parseHeader_eq_some_iff.2 ⟨rfl, rfl⟩
  have hparse' : parseHeader priorityMessage = .ok (some priorityHeader) :=
    parseHeader_eq_some_iff.2 ⟨priorityMessage_grammar.take_eq, rfl⟩
  refine ⟨(decode_framing hparse).1 (by decide), fun x => ?_⟩
  obtain ⟨ok, d, e, hd, he, hsame⟩ := (decode_framing hparse').2 (Nat.le_refl 28) x
  have hcut : priorityMessage.take (20 + priorityHeader.msgLength.toNat) = priorityMessage := rfl
  rw [hcut] at hd he
  obtain ⟨rfl, -⟩ : ok = true ∧ d = _ :=
    Prod.mk.inj (Except.ok.inj (hd.symm.trans (decode_new_of_grammar priorityMessage_grammar)))
  exact ⟨d, e, hd, he, hsame rfl⟩

end Decoder

end Stunxx
