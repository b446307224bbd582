import Stunxx.StunMessageBuilder
import Stunxx.Verify.FailedAdd
import Stunxx.Verify.Reading
import Mathlib.Tactic.IntervalCases

/-!
# A chain of builder calls

A builder passes its calls on up to the first that fails and drops the rest, so a chain need not be
checked call by call (`chain_cases`), and `valid` says whether all were accepted. What `finalize`
leaves depends on the length in the header. It is right, and the accepted attributes are received,
exactly when the last accepted seal is behind everything else and the failed call did not rewrite
the header of a sealed message (`chain_delivers_iff`).
-/

namespace Stunxx

open Overlay Machine Tlv

/-! ## What a receiver finds -/

section Received

variable [Platform] {type : UInt16} {tid : TransactionId} {size : Nat}
  {hist : List (AddCall × AddResult)} {e : Encoder}

/-- The calls as a receiver finds them: the attributes class by class, and the digests. -/
structure Received (type : UInt16) (tid : TransactionId) (calls : List AddCall)
    (results : List AddResult) (d : Decoder) : Prop where
  msgType : d.stunHeader.msgType = type
  transactionId : d.transactionId = tid
  unknownRequired : d.unknownRequired = []
  ordinary : ∀ c : AttrClass, c.isOrdinary = true →
    d.getAttributes c.Obj = calls.filterMap (AddCall.as? c)
  integrity : ∀ kind : IntegrityKind, d.getAttributes kind.Obj =
    (results.filterMap (AddResult.digest kind)).map MessageIntegrityAttrT.ofHmac

/-- The message is received with these calls, and nothing of it is left. -/
structure ReceivedWhole (type : UInt16) (tid : TransactionId) (calls : List AddCall)
    (results : List AddResult) (message : Bytes) (d : Decoder) : Prop
    extends Received type tid calls results d where
  parse_eq : Decoder.parse message = .ok (some d)
  length_eq : 20 + d.messageLength.toNat = message.length
  totalLength_eq : d.totalLength = message.length

/-- Calls in any order are received, if their last seal is behind everything else. -/
theorem Sent.received (h : Sent type tid size hist e) (hsize : 20 ≤ size)
    (hbound : e.offset - 20 ≤ 65535) (hlast : SealsLast (hist.map Prod.fst))
    (hread : ∀ x ∈ hist, x.1.Readable tid) :
    ∃ d, Decoder.parse e.message = .ok (some d) ∧ d.totalLength = e.offset ∧
      Received type tid (hist.map Prod.fst) (hist.map Prod.snd) d := by
  obtain ⟨rs, hrs, hbytes⟩ := h.records hbound
  have hg := h.grammar hsize hbound (h.sealsLast_iff.1 hlast) hrs hbytes
  rw [← Encoder.finalize_totalSize, ← Encoder.message] at hg
  refine ⟨_, Decoder.parse_eq_some_iff.2 ⟨_, rs, hg, rfl⟩, h.sum_stride hsize hrs hbytes, ?_⟩
  constructor
  case msgType => rfl
  case transactionId => rfl
  case unknownRequired => exact unknownTypes_sent hrs
  case ordinary =>
    intro c hord
    rw [Decoder.getAttributes_parsed c.Obj hg, List.filterMap_map]
    exact valuesOf_sent _ hrs fun x hx r hr => valueOf_ordinary hord hr (hread x hx)
  case integrity =>
    intro kind
    rw [Decoder.getAttributes_parsed kind.Obj hg,
      valuesOf_sent _ hrs fun x _ r hr => valueOf_integrity kind hr, List.filterMap_map,
      List.map_filterMap]
    rfl

end Received

/-! ## Failures in a chain -/

namespace Encoder

section Failure

variable [Platform] {type : UInt16} {tid : TransactionId} {size : Nat}
  {hist : List (AddCall × AddResult)} {e : Encoder}

/-- A failed add that is harmless leaves the message as it was. -/
theorem message_of_failed (h : Inv type tid size e) (hsize : 20 ≤ size) {c : AddCall}
    (hfail : (e.add c).1.ok = false) (hharmless : Harmless e c) :
    (e.add c).2.message = e.message :=
  (((add_outcome e c).sameRun_iff h hsize hfail).2 hharmless []).message

/-- A failed add takes no room. -/
theorem totalSize_of_failed {c : AddCall} (hfail : (e.add c).1.ok = false) :
    (e.add c).2.totalSize = e.totalSize := by
  have hout := add_outcome e c
  generalize (e.add c).1 = r, (e.add c).2 = f at hfail hout ⊢
  cases hout with
  | refused => rfl
  | announced => rfl
  | ordinary => cases hfail
  | integrity => cases hfail
  | fingerprint => cases hfail

/-- A call that fails in this state does not touch the header of a sealed message: it is no
MESSAGE-INTEGRITY, or it has no room, or nothing sealed the message. -/
def HeaderKept (e : Encoder) : AddCall → Prop
  | .integrity kind _ => e.buffer.bytes.length < e.offset + sealSize kind.type ∨ ¬e.Sealed
  | _ => True

theorem HeaderKept.harmless {c : AddCall} (h : HeaderKept e c) : Harmless e c := by
  cases c with
  | ordinary => trivial
  | integrity => exact h.imp_right .inl
  | fingerprint => trivial

/-- The length that a receiver reads is the one the encoder wrote last. -/
theorem Inv.msgLength_of_parse (h : Inv type tid size e) (hsize : 20 ≤ size) {d : Decoder}
    (hparse : Decoder.parse e.message = .ok (some d)) :
    e.finalize.stunHeader.msgLength = hostToBe16 d.messageLength := by
  obtain ⟨g, rs, hg, rfl⟩ := Decoder.parse_eq_some_iff.1 hparse
  obtain ⟨length, hheader⟩ := h.finalize.header
  have hoff : 20 ≤ e.finalize.totalSize := h.finalize.le_offset
  have hwire : e.finalize.buffer.bytes.take 20 = g.wire := by
    rw [← hg.take_eq, message, List.take_take, Nat.min_eq_left hoff]
  rw [h.headerWritten_finalize hsize, hheader, netHeader_bytes] at hwire
  rw [hheader, ← StunHeader.wire_inj hwire]
  rfl

/-- A call that fails and rewrites the header of a sealed message leaves a wrong length. -/
theorem headerKept_of_parse (h : Inv type tid size e) (hsize : 20 ≤ size)
    (hbound : e.offset - 20 ≤ 65535) {c : AddCall} (hfail : (e.add c).1.ok = false) {d : Decoder}
    (hparse : Decoder.parse (e.add c).2.message = .ok (some d))
    (hwhole : 20 + d.messageLength.toNat = (e.add c).2.message.length) : HeaderKept e c := by
  have hnext := h.outcome (add_outcome e c)
  have hlength := hnext.msgLength_of_parse hsize hparse
  rw [hnext.length_message hsize] at hwhole
  have hout := add_outcome e c
  generalize (e.add c).1 = r, (e.add c).2 = f at hfail hlength hwhole hout
  cases hout with
  | refused hfull =>
    cases c with
    | ordinary => trivial
    | integrity kind a => exact .inl (hfull kind a rfl)
    | fingerprint => trivial
  | @announced kind a hroom =>
    refine .inr fun hsealed => ?_
    have hoff := h.le_offset
    have hseal : sealSize kind.type = 24 ∨ sealSize kind.type = 36 := by
      cases kind
      · exact .inl rfl
      · exact .inr rfl
    -- the length counts the attribute that was not added
    rw [finalize_of_sealed (e := e.announce _) hsealed] at hlength
    have hsame : UInt16.ofNat (e.stunSize.toNat + sealSize kind.type) = d.messageLength :=
      hostToBe16_inj hlength
    have hstun : e.stunSize.toNat = e.offset - 20 := by
      rw [stunSize, UInt16.toNat_ofNat']
      exact Nat.mod_eq_of_lt (Nat.lt_succ_of_le hbound)
    have hend : (e.announce (sealSize kind.type)).offset = e.offset := rfl
    rw [← hsame, UInt16.toNat_ofNat', hstun, hend] at hwhole
    omega
  | ordinary => cases hfail
  | integrity => cases hfail
  | fingerprint => cases hfail

end Failure

end Encoder

section Length

variable [Platform] {type : UInt16} {tid : TransactionId} {size : Nat}
  {hist : List (AddCall × AddResult)} {e : Encoder}

/-- The header of a message whose last seal is behind everything else counts what is there. -/
theorem Sent.length_field (h : Sent type tid size hist e) (hsize : 20 ≤ size)
    (hbound : e.offset - 20 ≤ 65535) (hlast : SealsLast (hist.map Prod.fst)) {d : Decoder}
    (hparse : Decoder.parse e.message = .ok (some d)) :
    20 + d.messageLength.toNat = e.message.length := by
  have hoff := h.le_offset
  obtain ⟨rs, hrs, hbytes⟩ := h.records hbound
  have hg := h.grammar hsize hbound (h.sealsLast_iff.1 hlast) hrs hbytes
  rw [← Encoder.finalize_totalSize, ← Encoder.message] at hg
  obtain ⟨g, qs, hg', rfl⟩ := Decoder.parse_eq_some_iff.1 hparse
  obtain ⟨rfl, -⟩ := hg'.unique hg
  rw [h.toInv.length_message hsize]
  show 20 + (UInt16.ofNat (e.finalize.totalSize - 20)).toNat = e.offset
  rw [Encoder.finalize_totalSize, UInt16.toNat_ofNat', Nat.mod_eq_of_lt (by omega)]
  omega

/-- The header of any other message counts less. -/
theorem Sent.sealsLast_of_parse (h : Sent type tid size hist e) (hsize : 20 ≤ size)
    (hbound : e.offset - 20 ≤ 65535) {d : Decoder}
    (hparse : Decoder.parse e.message = .ok (some d))
    (hwhole : 20 + d.messageLength.toNat = e.message.length) :
    SealsLast (hist.map Prod.fst) := by
  rw [h.sealsLast_iff]
  by_contra hlast
  rw [not_or, not_not] at hlast
  obtain ⟨hsealed, hends⟩ := hlast
  have hlength := h.toInv.msgLength_of_parse hsize hparse
  obtain ⟨n, hn, hle, hexact⟩ := h.length hsealed
  have hlt : n ≠ e.offset - 20 := fun heq => hends (hexact.1 heq)
  rw [Encoder.finalize_of_sealed hsealed, hn] at hlength
  rw [h.toInv.length_message hsize, ← hostToBe16_inj hlength, UInt16.toNat_ofNat',
    Nat.mod_eq_of_lt (by omega)] at hwhole
  omega

section Whole

variable (h : Sent type tid size hist e) (hsize : 20 ≤ size) (hbound : e.offset - 20 ≤ 65535)
  (hread : ∀ x ∈ hist, x.1.Readable tid)

include h hsize hbound hread

/-- A message is received whole exactly when its last seal is behind everything else. -/
theorem Sent.received_iff :
    SealsLast (hist.map Prod.fst) ↔
      ∃ d, ReceivedWhole type tid (hist.map Prod.fst) (hist.map Prod.snd) e.message d := by
  constructor
  · intro hlast
    obtain ⟨d, hparse, htotal, hreceived⟩ := h.received hsize hbound hlast hread
    have hend : d.totalLength = e.message.length := by
      rw [htotal, h.toInv.length_message hsize]
    exact ⟨d, hreceived, hparse, h.length_field hsize hbound hlast hparse, hend⟩
  · rintro ⟨d, hwhole⟩
    exact h.sealsLast_of_parse hsize hbound hwhole.parse_eq hwhole.length_eq

/-- After a call that failed, the header has to be as it was too. -/
theorem Sent.received_iff_of_failed {c : AddCall} (hfail : (e.add c).1.ok = false) :
    SealsLast (hist.map Prod.fst) ∧ e.HeaderKept c ↔
      ∃ d, ReceivedWhole type tid (hist.map Prod.fst) (hist.map Prod.snd)
        (e.add c).2.message d := by
  have hsame := fun hkept : e.HeaderKept c =>
    Encoder.message_of_failed h.toInv hsize hfail hkept.harmless
  constructor
  · rintro ⟨hlast, hkept⟩
    rw [hsame hkept]
    exact (h.received_iff hsize hbound hread).1 hlast
  · rintro ⟨d, hwhole⟩
    have hkept := Encoder.headerKept_of_parse h.toInv hsize hbound hfail hwhole.parse_eq
      hwhole.length_eq
    rw [hsame hkept] at hwhole
    exact ⟨(h.received_iff hsize hbound hread).2 ⟨d, hwhole⟩, hkept⟩

end Whole

end Length

/-! ## Chains -/

namespace StunMessageBuilder

section Chain

variable [Platform]

/-- A chain of calls on a builder. -/
def chain (b : StunMessageBuilder) (calls : List AddCall) : StunMessageBuilder := calls.foldl add b

/-- The flag of a builder is a latch on the encoder. -/
theorem chain_eq_latched (b : StunMessageBuilder) (calls : List AddCall) :
    ((b.chain calls).valid, (b.chain calls).encoder) =
      calls.foldl (latched Encoder.add AddResult.ok) (b.valid, b.encoder) := by
  induction calls generalizing b with
  | nil => rfl
  | cons c calls ih =>
    have hstep : ((b.add c).valid, (b.add c).encoder) =
        latched Encoder.add AddResult.ok (b.valid, b.encoder) c := by
      cases hvalid : b.valid with
      | true =>
        rw [add_of_valid hvalid, latched]
        rfl
      | false =>
        rw [add_of_not_valid hvalid, latched, hvalid]
        rfl
    rw [List.foldl_cons, ← hstep]
    exact ih (b.add c)

/-- **A chain stops at its first failure**: the calls up to it were accepted, it was passed on and
the calls behind it were not. -/
theorem chain_cases {b : StunMessageBuilder} (hvalid : b.valid = true) (calls : List AddCall) :
    ∃ taken rest, calls = taken ++ rest ∧
      (∀ r ∈ (run Encoder.add b.encoder taken).1, r.ok = true) ∧
      (rest = [] ∧ (b.chain calls).valid = true ∧
          (b.chain calls).encoder = (run Encoder.add b.encoder taken).2 ∨
        ∃ c behind, rest = c :: behind ∧
          ((run Encoder.add b.encoder taken).2.add c).1.ok = false ∧
          (b.chain calls).valid = false ∧
          (b.chain calls).encoder = ((run Encoder.add b.encoder taken).2.add c).2) := by
  have hchain := chain_eq_latched b calls
  rw [hvalid] at hchain
  obtain ⟨taken, rest, hcalls, hok, hend⟩ :=
    foldl_latched Encoder.add AddResult.ok b.encoder calls
  refine ⟨taken, rest, hcalls, hok, ?_⟩
  rcases hend with ⟨hrest, hfold⟩ | ⟨c, behind, hrest, hfail, hfold⟩
  · rw [hfold] at hchain
    exact .inl ⟨hrest, congrArg Prod.fst hchain, congrArg Prod.snd hchain⟩
  · rw [hfold] at hchain
    exact .inr ⟨c, behind, hrest, hfail, congrArg Prod.fst hchain, congrArg Prod.snd hchain⟩

/-- **What a chain leaves**: some calls were accepted, and `valid` says whether these are all. The
finished message is received whole, with these calls, exactly when the last seal among them is
behind everything else and the call that failed kept the header. -/
theorem chain_delivers_iff (method : StunMethod) (cls : StunClass) (tid : TransactionId)
    {buffer : Bytes} (hsize : 20 ≤ buffer.length) {calls : List AddCall}
    (hread : ∀ c ∈ calls, c.Readable tid)
    (hbound : ((new method.code cls.code tid buffer).chain calls).encoder.totalSize - 20 ≤ 65535) :
    let b := (new method.code cls.code tid buffer).chain calls
    let message := b.finalize.encoder.buffer.bytes.take b.finalize.encoder.totalSize
    ∃ taken rest, calls = taken ++ rest ∧ (b.valid = true ↔ rest = []) ∧
      let out := run Encoder.add (Encoder.new (messageType method cls) tid buffer) taken
      (∀ r ∈ out.1, r.ok = true) ∧ (∀ c ∈ rest.head?, (out.2.add c).1.ok = false) ∧
      (SealsLast taken ∧ (∀ c ∈ rest.head?, out.2.HeaderKept c) ↔
        ∃ d, ReceivedWhole (messageType method cls) tid taken out.1 message d ∧
          d.messageMethod = method.code ∧ d.messageClass = cls.code) := by
  intro b message
  obtain ⟨taken, rest, hcalls, hok, hend⟩ :=
    chain_cases (b := new method.code cls.code tid buffer) rfl calls
  have hstart : (new method.code cls.code tid buffer).encoder =
      Encoder.new (messageType method cls) tid buffer := rfl
  rw [hstart] at hok hend
  have hsent := sent_run (messageType method cls) tid buffer hok
  have hvalues : ∀ x ∈ history Encoder.add (Encoder.new (messageType method cls) tid buffer) taken,
      x.1.Readable tid := by
    intro x hx
    apply hread
    rw [hcalls]
    exact List.mem_append_left rest (mem_of_mem_history Encoder.add hx)
  have hfirst := map_fst_history Encoder.add (Encoder.new (messageType method cls) tid buffer) taken
  have hmessage : message = b.encoder.message := by
    rw [Encoder.message, Encoder.finalize_totalSize, ← Encoder.finalize_totalSize b.encoder]
    rfl
  -- the method and the class are those of the type
  have htype : ∀ {results : List AddResult},
      (∃ d, ReceivedWhole (messageType method cls) tid taken results message d ∧
          d.messageMethod = method.code ∧ d.messageClass = cls.code) ↔
        ∃ d, ReceivedWhole (messageType method cls) tid taken results message d := by
    refine fun {results} => exists_congr fun d => and_iff_left_of_imp fun hwhole => ⟨?_, ?_⟩
    · rw [Decoder.messageMethod, hwhole.msgType, messageType_method]
    · rw [Decoder.messageClass, hwhole.msgType, messageType_class]
  refine ⟨taken, rest, hcalls, ?_⟩
  dsimp only
  rw [htype, hmessage]
  rcases hend with ⟨rfl, hvalid, hencoder⟩ | ⟨c, behind, rfl, hfail, hvalid, hencoder⟩
  · have hlimit := hbound
    rw [hencoder] at hlimit
    have hwhole := hsent.received_iff hsize hlimit hvalues
    rw [hfirst, map_snd_history] at hwhole
    rw [show b.encoder = _ from hencoder, ← hwhole]
    exact ⟨iff_of_true hvalid rfl, hok, by simp, by simp⟩
  · have hlimit := hbound
    rw [hencoder, Encoder.totalSize_of_failed hfail] at hlimit
    have hwhole := hsent.received_iff_of_failed hsize hlimit hvalues hfail
    rw [hfirst, map_snd_history] at hwhole
    have hnot : ¬b.valid = true := by
      rw [show b.valid = false from hvalid]
      exact Bool.false_ne_true
    rw [show b.encoder = _ from hencoder, ← hwhole]
    refine ⟨iff_of_false hnot (List.cons_ne_nil c behind), hok, ?_, ?_⟩
    · intro d hd
      cases hd
      exact hfail
    · simp

end Chain

/-! A PRIORITY and a MESSAGE-INTEGRITY fit into 52 bytes, a FINGERPRINT does not fit behind them. -/

local instance chainHost : Platform := .ofDigest (List.replicate 20 0)

theorem chain_delivers_iff_short :
    let calls : List AddCall :=
      [.ordinary ⟨.priority, rfl, ⟨7⟩⟩, .integrity .sha1 (.ofKey [0x6B]), .fingerprint]
    let b := (new StunMethod.binding.code StunClass.request.code (ByteArrayN.zero 12)
      (List.replicate 52 0)).chain calls
    b.valid = false ∧
      ∃ d, Decoder.parse (b.finalize.encoder.buffer.bytes.take b.finalize.encoder.totalSize) =
        .ok (some d) ∧ d.totalLength = 52 := by
  intro calls b
  have hread : ∀ c ∈ calls, c.Readable (ByteArrayN.zero 12) := by
    intro c hc a ha
    subst ha
    simp only [calls, List.mem_cons, AddCall.ordinary.injEq, reduceCtorEq, List.not_mem_nil,
      or_false] at hc
    subst hc
    exact ⟨trivial, by decide⟩
  have hinvalid : b.valid = false := by decide +kernel
  obtain ⟨taken, rest, hcalls, -, hok, hfail, hiff⟩ :=
    @chain_delivers_iff _ .binding .request (ByteArrayN.zero 12) (List.replicate 52 0) (by decide)
      calls hread (by decide +kernel)
  have hkept : SealsLast taken ∧ ∀ c ∈ rest.head?, Encoder.HeaderKept
      (run Encoder.add (Encoder.new (messageType .binding .request) (ByteArrayN.zero 12)
        (List.replicate 52 0)) taken).2 c := by
    simp only [calls] at hcalls
    rcases taken with _ | ⟨c₁, _ | ⟨c₂, _ | ⟨c₃, taken⟩⟩⟩
    · cases hcalls
      refine ⟨.inl (by simp), ?_⟩
      rintro c ⟨⟩
      trivial
    · cases hcalls
      refine ⟨.inl (by simp [AddCall.isSeal]), ?_⟩
      rintro c ⟨⟩
      refine .inr ?_
      rintro (hseal | hseal) <;> revert hseal <;> decide +kernel
    · cases hcalls
      refine ⟨.inr ⟨_, rfl, rfl⟩, ?_⟩
      rintro c ⟨⟩
      trivial
    · obtain ⟨rfl, rfl⟩ : taken = [] ∧ rest = [] := by
        simpa using congrArg (List.drop 3) hcalls
      cases hcalls
      exact ⟨.inr ⟨_, rfl, rfl⟩, by simp⟩
  obtain ⟨d, hwhole, -, -⟩ := hiff.1 hkept
  refine ⟨hinvalid, d, hwhole.parse_eq, hwhole.totalLength_eq.trans ?_⟩
  decide +kernel

end StunMessageBuilder

/-! ## Requests, responses and indications -/

theorem and_stunClassMask (w : UInt16) :
    w &&& stunClassMask =
      (if w.toBitVec[8] = true then 0x0100 else 0) |||
        (if w.toBitVec[4] = true then 0x0010 else 0) := by
  apply UInt16.toBitVec_inj.1
  apply BitVec.eq_of_getLsbD_eq
  intro i hi
  interval_cases i <;> cases h8 : w.toBitVec[8] <;> cases h4 : w.toBitVec[4] <;>
    simp [stunClassMask, h8, h4]

/-- **A message is a request, a response or an indication**, and one of these only, whatever else
its type says. -/
theorem Decoder.kind_cases (d : Decoder) :
    (d.isRequest = true ∧ d.isResponse = false ∧ d.isIndication = false) ∨
      (d.isRequest = false ∧ d.isResponse = true ∧ d.isIndication = false) ∨
        (d.isRequest = false ∧ d.isResponse = false ∧ d.isIndication = true) := by
  rw [isRequest, isResponse, isIndication, messageClass, and_stunClassMask]
  cases d.stunHeader.msgType.toBitVec[8] <;>
    cases d.stunHeader.msgType.toBitVec[4] <;> decide

/-- What was built as a class is taken for its kind. -/
theorem Decoder.kind_of_class {d : Decoder} {cls : StunClass} (h : d.messageClass = cls.code) :
    d.isRequest = decide (cls = .request) ∧ d.isIndication = decide (cls = .indication) ∧
      d.isResponse = decide (cls = .successResp ∨ cls = .errorResp) := by
  rw [isRequest, isResponse, isIndication, h]
  cases cls <;> decide

end Stunxx
