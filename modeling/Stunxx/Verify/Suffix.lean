import Stunxx.Attributes.Registry
import Stunxx.Verify.Lookup

/-!
# What follows MESSAGE-INTEGRITY

A receiver checks a MESSAGE-INTEGRITY over the bytes in front of it, so whoever forwards a message
can append attributes behind it. `decode` keeps them like any other. Two messages with the same
bytes up to their first MESSAGE-INTEGRITY have the same attributes in front of it
(`Tiling.exists_of_take_eq`), so a lookup of both sees the same values and then those behind it.
What was appended does no harm where no class reads it (`sameBehind_iff_silent`). For one signed
message, all the others agree with it only when they cannot be any longer.
-/

namespace Stunxx

open Overlay Tlv

namespace Decoder

/-! ## The signed bytes -/

/-- The attribute bytes up to and including a MESSAGE-INTEGRITY `mi`, without its padding. -/
def signedSize (pre : List WireAttr) (mi : WireAttr) : Nat :=
  (pre.map (stride stunFormat)).sum + attrHeaderSize + mi.value.length

/-- A second message has the type, the transaction ID and the first `n` attribute bytes of a
first one. -/
structure SameSigned (n : Nat) (d e : Decoder) : Prop where
  msgType : e.stunHeader.msgType = d.stunHeader.msgType
  transactionId : e.transactionId = d.transactionId
  covers : n ≤ e.messageLength.toNat
  slice_eq : slice e.buffer 20 n = slice d.buffer 20 n

section Signed

variable {b c : Bytes} {h g : StunHeader} {pre behind qs : List WireAttr} {mi : WireAttr}

theorem signedSize_le (hg : Grammar b h (pre ++ mi :: behind)) :
    signedSize pre mi ≤ h.msgLength.toNat := by
  rw [← hg.length_attrBytes]
  exact hg.tiling.sum_stride_le stunFormat

theorem take_attrBytes {n : Nat} (hn : n ≤ h.msgLength.toNat) :
    (attrBytes b h).take n = slice b 20 n := by
  rw [attrBytes, slice, List.take_take, Nat.min_eq_left hn, slice]

/-- The signed bytes of a message. -/
theorem slice_signed (hg : Grammar b h (pre ++ mi :: behind)) :
    slice b 20 (signedSize pre mi) = pre.flatMap (wire stunFormat) ++
      (writeHeader mi.tag (UInt16.ofNat mi.value.length) ++ mi.value) := by
  obtain ⟨hfull, -, rest, hsplit, -⟩ := hg.tiling.exists_split
  rw [← take_attrBytes (signedSize_le hg), hsplit]
  exact take_flatMap_wire stunFormat hfull mi rest

/-- The attributes up to the MESSAGE-INTEGRITY are those of the first message. -/
theorem exists_of_sameSigned (hb : Grammar b h (pre ++ mi :: behind)) (hc : Grammar c g qs)
    (hsame : SameSigned (signedSize pre mi) (parsed b h (pre ++ mi :: behind)) (parsed c g qs)) :
    ∃ padding behind', qs = pre ++ ⟨mi.tag, mi.value, padding⟩ :: behind' := by
  refine hb.tiling.exists_of_take_eq stunFormat hc.tiling ?_
  have hbs := take_attrBytes (b := b) (signedSize_le hb)
  have hcs := take_attrBytes (b := c) hsame.covers
  exact hcs.trans (hsame.slice_eq.trans hbs.symm)

/-! ## Appending attributes -/

/-- The MESSAGE-INTEGRITY with its padding complete. -/
def fullPadding (mi : WireAttr) : WireAttr := ⟨mi.tag, mi.value, padding mi.value.length⟩

/-- The header of a message with the attributes `qs`. -/
def withLength (h : StunHeader) (qs : List WireAttr) : StunHeader :=
  { h with msgLength := UInt16.ofNat (qs.map (stride stunFormat)).sum }

/-- The signed attributes followed by others, as long as their length can be announced, are a
message that has the bytes of the first one up to the MESSAGE-INTEGRITY. -/
theorem exists_sameSigned (hb : Grammar b h (pre ++ mi :: behind)) {more : List WireAttr}
    (hmore : ∀ r ∈ more, Full stunFormat r)
    (hroom : (pre.map (stride stunFormat)).sum + stride stunFormat mi +
      (more.map (stride stunFormat)).sum < 65536) :
    ∃ c g, Grammar c g (pre ++ fullPadding mi :: more) ∧
      SameSigned (signedSize pre mi) (parsed b h (pre ++ mi :: behind))
        (parsed c g (pre ++ fullPadding mi :: more)) := by
  obtain ⟨hfull, hv, -⟩ := hb.tiling.exists_split
  have hfulls : ∀ r ∈ pre ++ fullPadding mi :: more, Full stunFormat r := by
    intro r hr
    rcases List.mem_append.1 hr with hr | hr
    · exact hfull r hr
    rcases List.mem_cons.1 hr with rfl | hr
    · exact ⟨hv, length_padding _⟩
    · exact hmore r hr
  have hsum : ((pre ++ fullPadding mi :: more).map (stride stunFormat)).sum =
      (pre.map (stride stunFormat)).sum + stride stunFormat mi +
        (more.map (stride stunFormat)).sum := by
    rw [List.map_append, List.sum_append, List.map_cons, List.sum_cons, Nat.add_assoc]
    rfl
  have hlength : (withLength h (pre ++ fullPadding mi :: more)).msgLength.toNat =
      ((pre ++ fullPadding mi :: more).map (stride stunFormat)).sum := by
    rw [withLength, UInt16.toNat_ofNat', Nat.mod_eq_of_lt (by rwa [hsum])]
  have hgrammar := Grammar.of_wire (h := withLength h (pre ++ fullPadding mi :: more)) hb.cookie
    hfulls (hlength.trans (length_flatMap_wire stunFormat hfulls).symm)
  have hcovers : signedSize pre (fullPadding mi) ≤
      (withLength h (pre ++ fullPadding mi :: more)).msgLength.toNat := signedSize_le hgrammar
  exact ⟨_, _, hgrammar, rfl, rfl, hcovers, (slice_signed hgrammar).trans (slice_signed hb).symm⟩

/-- When no attribute fits behind a MESSAGE-INTEGRITY, there is none. -/
theorem behind_eq_nil (hg : Grammar b h (pre ++ mi :: behind))
    (hroom : 65535 < (pre.map (stride stunFormat)).sum + stride stunFormat mi + 4) :
    behind = [] := by
  cases behind with
  | nil => rfl
  | cons r behind =>
    have htiling := hg.tiling
    rw [List.append_cons] at htiling
    have hle := htiling.sum_stride_le stunFormat
    have hlt := h.msgLength.toNat_lt
    rw [hg.length_attrBytes, List.map_append, List.sum_append, List.map_singleton,
      List.sum_singleton, headSize_stunFormat] at hle
    omega

end Signed

/-! ## Lookups across the MESSAGE-INTEGRITY -/

section Values

variable (α : Type) [StunAttribute α] (tid : TransactionId)

/-- What the first attribute of a class decodes to. -/
def firstOf (rs : List WireAttr) : Option α :=
  (rs.find? fun r => r.tag == (StunAttribute.type α).code).bind
    fun r => StunAttribute.decode tid r.value

/-- An attribute of the class is there. -/
def Occurs (rs : List WireAttr) : Prop := ∃ r ∈ rs, r.tag = (StunAttribute.type α).code

variable {pre behind : List WireAttr} {mi : WireAttr}

theorem valuesOf_split (hmi : mi.tag ≠ (StunAttribute.type α).code) :
    valuesOf α tid (pre ++ mi :: behind) = valuesOf α tid pre ++ valuesOf α tid behind := by
  rw [valuesOf, List.filter_append, List.filter_cons_of_neg (by simpa using hmi),
    List.filterMap_append]
  rfl

theorem firstOf_split_of_occurs (hocc : Occurs α pre) :
    firstOf α tid (pre ++ mi :: behind) = firstOf α tid pre := by
  obtain ⟨r, hr, htag⟩ := hocc
  have hsome : (pre.find? fun r => r.tag == (StunAttribute.type α).code).isSome = true := by
    rw [List.find?_isSome]
    exact ⟨r, hr, by simpa using htag⟩
  rw [firstOf, List.find?_append, Option.or_of_isSome hsome]
  rfl

theorem firstOf_split_of_not_occurs (hmi : mi.tag ≠ (StunAttribute.type α).code)
    (hocc : ¬Occurs α pre) :
    firstOf α tid (pre ++ mi :: behind) = firstOf α tid behind := by
  have hnone : (pre.find? fun r => r.tag == (StunAttribute.type α).code) = none := by
    rw [List.find?_eq_none]
    intro r hr htag
    exact hocc ⟨r, hr, by simpa using htag⟩
  rw [firstOf, List.find?_append, hnone, Option.none_or,
    List.find?_cons_of_neg (by simpa using hmi)]
  rfl

/-- Behind the MESSAGE-INTEGRITY, both messages deliver the same values of the class, and where the
first attribute of the class is behind it, it decodes alike. -/
def SameBehind (pre behind behind' : List WireAttr) : Prop :=
  valuesOf α tid behind = valuesOf α tid behind' ∧
    (Occurs α pre ∨ firstOf α tid behind = firstOf α tid behind')

theorem same_split_iff {mi' : WireAttr} {behind' : List WireAttr}
    (hmi : mi.tag ≠ (StunAttribute.type α).code) (hmi' : mi'.tag ≠ (StunAttribute.type α).code) :
    (firstOf α tid (pre ++ mi :: behind) = firstOf α tid (pre ++ mi' :: behind') ∧
      valuesOf α tid (pre ++ mi :: behind) = valuesOf α tid (pre ++ mi' :: behind')) ↔
      SameBehind α tid pre behind behind' := by
  unfold SameBehind
  rw [valuesOf_split α tid hmi, valuesOf_split α tid hmi', List.append_cancel_left_eq]
  by_cases hocc : Occurs α pre
  · rw [firstOf_split_of_occurs α tid hocc, firstOf_split_of_occurs α tid hocc]
    simp only [hocc, true_or, true_and, and_true]
  · rw [firstOf_split_of_not_occurs α tid hmi hocc, firstOf_split_of_not_occurs α tid hmi' hocc]
    simp only [hocc, false_or]
    exact and_comm

theorem valuesOf_eq_nil_iff {rs : List WireAttr} :
    valuesOf α tid rs = [] ↔ ∀ r ∈ rs, r.tag = (StunAttribute.type α).code →
      StunAttribute.decode (α := α) tid r.value = none := by
  rw [valuesOf, List.filterMap_eq_nil_iff]
  simp only [List.mem_filter, beq_iff_eq, and_imp]

theorem firstOf_eq_none {rs : List WireAttr} (h : valuesOf α tid rs = []) :
    firstOf α tid rs = none := by
  rw [valuesOf_eq_nil_iff] at h
  rw [firstOf]
  cases hfind : rs.find? fun r => r.tag == (StunAttribute.type α).code with
  | none => rfl
  | some r =>
    have htag : (r.tag == (StunAttribute.type α).code) = true :=
      List.find?_some (p := fun r : WireAttr => r.tag == (StunAttribute.type α).code) hfind
    exact h r (List.mem_of_find?_eq_some hfind) (beq_iff_eq.1 htag)

end Values

section Lookups

variable [Platform]

/-- Two decoders give the same results for every class but MESSAGE-INTEGRITY,
MESSAGE-INTEGRITY-SHA256 and FINGERPRINT. -/
def SameLookups (d e : Decoder) : Prop :=
  ∀ cls : AttrClass, cls.isOrdinary = true →
    d.getAttribute cls.Obj = e.getAttribute cls.Obj ∧
      d.getAttributes cls.Obj = e.getAttributes cls.Obj

/-- No class reads the attribute, but perhaps as a MESSAGE-INTEGRITY or a FINGERPRINT. -/
def Silent (tid : TransactionId) (r : WireAttr) : Prop :=
  ∀ cls : AttrClass, cls.isOrdinary = true → r.tag = (StunAttribute.type cls.Obj).code →
    StunAttribute.decode (α := cls.Obj) tid r.value = none

theorem forall_silent_iff {tid : TransactionId} {rs : List WireAttr} :
    (∀ r ∈ rs, Silent tid r) ↔
      ∀ cls : AttrClass, cls.isOrdinary = true → valuesOf cls.Obj tid rs = [] := by
  simp only [valuesOf_eq_nil_iff]
  exact ⟨fun h cls hord r hr => h r hr cls hord, fun h r hr cls hord => h cls hord r hr⟩

/-- Behind a MESSAGE-INTEGRITY that only silent attributes follow, others do no harm exactly when
they are silent too. -/
theorem sameBehind_iff_silent {tid : TransactionId} {pre behind behind' : List WireAttr}
    (hbehind : ∀ r ∈ behind, Silent tid r) :
    (∀ cls : AttrClass, cls.isOrdinary = true → SameBehind cls.Obj tid pre behind behind') ↔
      ∀ r ∈ behind', Silent tid r := by
  rw [forall_silent_iff] at hbehind ⊢
  refine forall_congr' fun cls => imp_congr_right fun hord => ?_
  have hnone := hbehind cls hord
  constructor
  · intro hsame
    rw [← hsame.1, hnone]
  · intro hnone'
    rw [SameBehind, hnone, hnone', firstOf_eq_none _ tid hnone, firstOf_eq_none _ tid hnone']
    exact ⟨rfl, .inr rfl⟩

theorem code_ne_of_isOrdinary {cls : AttrClass} (h : cls.isOrdinary = true) :
    StunAttrType.messageIntegrity.code ≠ (StunAttribute.type cls.Obj).code := by
  intro hcode
  obtain rfl : AttrClass.messageIntegritySHA1 = cls :=
    AttrClass.type_inj (StunAttrType.code_inj hcode)
  cases h

section Main

variable {b c : Bytes} {h g : StunHeader} {pre behind qs : List WireAttr} {mi : WireAttr}

/-- The lookups of two messages that are the same up to a MESSAGE-INTEGRITY agree exactly when those
behind it do. -/
theorem sameLookups_iff {mi' : WireAttr} {behind' : List WireAttr}
    (hb : Grammar b h (pre ++ mi :: behind)) (hc : Grammar c g (pre ++ mi' :: behind'))
    (hmi : mi.tag = StunAttrType.messageIntegrity.code) (htag : mi'.tag = mi.tag)
    (htid : g.transactionId = h.transactionId) :
    SameLookups (parsed b h (pre ++ mi :: behind)) (parsed c g (pre ++ mi' :: behind')) ↔
      ∀ cls : AttrClass, cls.isOrdinary = true →
        SameBehind cls.Obj h.transactionId pre behind behind' := by
  unfold SameLookups
  refine forall_congr' fun cls => imp_congr_right fun hord => ?_
  have hne := code_ne_of_isOrdinary hord
  rw [← hmi] at hne
  have hne' : mi'.tag ≠ (StunAttribute.type cls.Obj).code := by rwa [htag]
  rw [← same_split_iff cls.Obj h.transactionId hne hne', getAttribute_parsed cls.Obj hb,
    getAttribute_parsed cls.Obj hc, getAttributes_parsed cls.Obj hb,
    getAttributes_parsed cls.Obj hc, htid]
  rfl

/-- An attribute without a value. -/
def useCandidate : WireAttr := ⟨StunAttrType.useCandidate.code, [], []⟩

/-- A message with the signed bytes of another one: its lookups are the other one's exactly when
those behind the MESSAGE-INTEGRITY are. -/
theorem exists_behind (hb : Grammar b h (pre ++ mi :: behind))
    (hmi : mi.tag = StunAttrType.messageIntegrity.code) {e : Decoder}
    (hdec : (new c).decode = .ok (true, e))
    (hsame : SameSigned (signedSize pre mi) (parsed b h (pre ++ mi :: behind)) e) :
    ∃ padding behind', Grammar c e.stunHeader (pre ++ ⟨mi.tag, mi.value, padding⟩ :: behind') ∧
      (SameLookups (parsed b h (pre ++ mi :: behind)) e ↔
        ∀ cls : AttrClass, cls.isOrdinary = true →
          SameBehind cls.Obj h.transactionId pre behind behind') := by
  obtain ⟨g, qs, hc, rfl⟩ := decode_new_eq_true_iff.1 hdec
  obtain ⟨padding, behind', rfl⟩ := exists_of_sameSigned hb hc hsame
  exact ⟨padding, behind', hc, sameLookups_iff hb hc hmi rfl hsame.transactionId⟩

/-- A message to which an attribute can be appended gives other lookups than some message with the
same signed bytes: the signed part alone and the signed part with USE-CANDIDATE cannot both agree
with it. -/
theorem not_forall_sameLookups (hb : Grammar b h (pre ++ mi :: behind))
    (hmi : mi.tag = StunAttrType.messageIntegrity.code)
    (hroom : (pre.map (stride stunFormat)).sum + stride stunFormat mi + 4 ≤ 65535) :
    ¬∀ c e, (new c).decode = .ok (true, e) →
      SameSigned (signedSize pre mi) (parsed b h (pre ++ mi :: behind)) e →
        SameLookups (parsed b h (pre ++ mi :: behind)) e := by
  intro hall
  have huse : ∀ r ∈ [useCandidate], Full stunFormat r := by
    intro r hr
    rw [List.mem_singleton.1 hr]
    exact ⟨by decide, rfl⟩
  have hstride : stride stunFormat useCandidate = 4 := rfl
  have hnone : ∀ r ∈ ([] : List WireAttr), Full stunFormat r := by simp
  obtain ⟨c₁, g₁, hc₁, hsame₁⟩ := exists_sameSigned hb hnone
    (by rw [List.map_nil, List.sum_nil]; omega)
  obtain ⟨c₂, g₂, hc₂, hsame₂⟩ := exists_sameSigned hb huse
    (by rw [List.map_singleton, List.sum_singleton, hstride]; omega)
  have heq₁ := (hall _ _ (decode_new_of_grammar hc₁) hsame₁ .useCandidate rfl).2
  have heq₂ := (hall _ _ (decode_new_of_grammar hc₂) hsame₂ .useCandidate rfl).2
  have hne : (fullPadding mi).tag ≠ (StunAttribute.type UseCandidateAttr).code := by
    rw [fullPadding, hmi]
    decide
  rw [heq₁, getAttributes_parsed _ hc₁, getAttributes_parsed _ hc₂,
    valuesOf_split _ _ hne, valuesOf_split _ _ hne] at heq₂
  have htid : g₁.transactionId = g₂.transactionId :=
    hsame₁.transactionId.trans hsame₂.transactionId.symm
  rw [htid] at heq₂
  have hvalues : [] = [({} : UseCandidateAttr)] := List.append_cancel_left heq₂
  cases hvalues

/-- **When the bytes behind a MESSAGE-INTEGRITY are harmless.** Two messages that are the same up to
it give the same lookups exactly when they do so for the attributes behind it; if those of one are
silent, exactly when those of the other are. A message gives the same lookups as every other one
exactly when no attribute can be appended to its signed part. -/
theorem same_lookups_iff {d : Decoder} (hdec : (new b).decode = .ok (true, d))
    (htiling : Tiling stunFormat (attrBytes b d.stunHeader) (pre ++ mi :: behind))
    (hmi : mi.tag = StunAttrType.messageIntegrity.code) :
    (∀ c e, (new c).decode = .ok (true, e) → SameSigned (signedSize pre mi) d e →
      ∃ padding behind',
        Grammar c e.stunHeader (pre ++ ⟨mi.tag, mi.value, padding⟩ :: behind') ∧
        (SameLookups d e ↔ ∀ cls : AttrClass, cls.isOrdinary = true →
          SameBehind cls.Obj d.transactionId pre behind behind') ∧
        ((∀ r ∈ behind, Silent d.transactionId r) →
          (SameLookups d e ↔ ∀ r ∈ behind', Silent d.transactionId r))) ∧
    ((∀ c e, (new c).decode = .ok (true, e) → SameSigned (signedSize pre mi) d e →
        SameLookups d e) ↔
      65535 < (pre.map (stride stunFormat)).sum + stride stunFormat mi + 4) := by
  obtain ⟨h, rs, hb, rfl⟩ := decode_new_eq_true_iff.1 hdec
  obtain rfl := hb.tiling.unique stunFormat htiling
  refine ⟨?_, ?_, ?_⟩
  · intro c e hdec' hsame
    obtain ⟨padding, behind', hc, hiff⟩ := exists_behind hb hmi hdec' hsame
    exact ⟨padding, behind', hc, hiff, fun hsilent => hiff.trans (sameBehind_iff_silent hsilent)⟩
  · intro hall
    by_contra hroom
    exact not_forall_sameLookups hb hmi (by omega) hall
  · intro hroom c e hdec' hsame
    obtain ⟨padding, behind', hc, hiff⟩ := exists_behind hb hmi hdec' hsame
    obtain rfl := behind_eq_nil hb hroom
    obtain rfl := behind_eq_nil hc hroom
    exact hiff.2 fun cls _ => ⟨rfl, .inr rfl⟩

end Main

end Lookups

/-! A signed Binding request, and the same with USE-CANDIDATE behind it. -/

def integrityAttr : WireAttr :=
  ⟨StunAttrType.messageIntegrity.code, List.replicate 20 0, []⟩

def requestHeader (length : UInt16) : StunHeader :=
  ⟨0x0001, length, magicCookie, ByteArrayN.zero 12⟩

def request (length : UInt16) (attrs : List WireAttr) : Bytes :=
  (requestHeader length).wire ++ attrs.flatMap (wire stunFormat)

/-- An attribute of a type that no class has. -/
def unknownAttr : WireAttr := ⟨0xFF00, [], []⟩

theorem full_of_mem_request {attrs : List WireAttr}
    (hattrs : attrs ⊆ [integrityAttr, useCandidate, unknownAttr]) :
    ∀ r ∈ attrs, Full stunFormat r := by
  intro r hr
  have hmem := hattrs hr
  simp only [List.mem_cons, List.not_mem_nil, or_false] at hmem
  rcases hmem with rfl | rfl | rfl
  · exact ⟨by decide, rfl⟩
  · exact ⟨by decide, rfl⟩
  · exact ⟨by decide, rfl⟩

theorem signed_grammar : Grammar (request 24 [integrityAttr]) (requestHeader 24) [integrityAttr] :=
  Grammar.of_wire rfl (full_of_mem_request (by simp)) rfl

theorem appended_grammar :
    Grammar (request 28 [integrityAttr, useCandidate]) (requestHeader 28)
      [integrityAttr, useCandidate] :=
  Grammar.of_wire rfl (full_of_mem_request (by simp)) rfl

theorem unknown_grammar :
    Grammar (request 28 [integrityAttr, unknownAttr]) (requestHeader 28)
      [integrityAttr, unknownAttr] :=
  Grammar.of_wire rfl (full_of_mem_request (by simp)) rfl

local instance suffixHost : Platform := .ofDigest []

theorem silent_unknownAttr (tid : TransactionId) : Silent tid unknownAttr := by
  intro cls _ htag
  cases cls <;> cases htag

/-- Some message with the signed bytes of the request gives other lookups, but not the one with an
attribute of an unknown type behind them. -/
theorem same_lookups_iff_request :
    (¬∀ c e, (new c).decode = .ok (true, e) →
      SameSigned (signedSize [] integrityAttr)
        (parsed (request 24 [integrityAttr]) (requestHeader 24) [integrityAttr]) e →
      SameLookups (parsed (request 24 [integrityAttr]) (requestHeader 24) [integrityAttr]) e) ∧
    SameLookups (parsed (request 24 [integrityAttr]) (requestHeader 24) [integrityAttr])
      (parsed (request 28 [integrityAttr, unknownAttr]) (requestHeader 28)
        [integrityAttr, unknownAttr]) := by
  have htiling : Tiling stunFormat (attrBytes (request 24 [integrityAttr]) (requestHeader 24))
      ([] ++ integrityAttr :: []) := signed_grammar.tiling
  obtain ⟨hpair, hall⟩ := same_lookups_iff (decode_new_of_grammar signed_grammar) htiling rfl
  refine ⟨fun hsame => absurd (hall.1 hsame) (by decide), ?_⟩
  obtain ⟨padding, behind, hg, -, hsilent⟩ :=
    hpair _ _ (decode_new_of_grammar unknown_grammar) ⟨rfl, rfl, by decide, rfl⟩
  obtain ⟨-, hattrs⟩ := hg.unique unknown_grammar
  cases hattrs
  refine (hsilent (by simp)).2 fun r hr => ?_
  rw [List.mem_singleton.1 hr]
  exact silent_unknownAttr _

/-- The appended USE-CANDIDATE is delivered. -/
theorem use_candidate_delivered :
    ∃ d e, (new (request 24 [integrityAttr])).decode = .ok (true, d) ∧
      (new (request 28 [integrityAttr, useCandidate])).decode = .ok (true, e) ∧
      SameSigned 24 d e ∧ d.getAttribute UseCandidateAttr = none ∧
      e.getAttribute UseCandidateAttr = some {} ∧ ¬SameLookups d e := by
  have hnone : (parsed (request 24 [integrityAttr]) (requestHeader 24)
      [integrityAttr]).getAttribute UseCandidateAttr = none := getAttribute_parsed _ signed_grammar
  have hsome : (parsed (request 28 [integrityAttr, useCandidate]) (requestHeader 28)
      [integrityAttr, useCandidate]).getAttribute UseCandidateAttr = some {} :=
    getAttribute_parsed _ appended_grammar
  refine ⟨_, _, decode_new_of_grammar signed_grammar, decode_new_of_grammar appended_grammar,
    ⟨rfl, rfl, by decide, rfl⟩, hnone, hsome, ?_⟩
  intro hsame
  have heq := (hsame .useCandidate rfl).1
  rw [hnone, hsome] at heq
  cases heq

end Decoder

end Stunxx
