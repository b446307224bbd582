import Stunxx.Encoder
import Stunxx.Lib.Machine

/-!
# The message builder

`StunMessageBuilder.hpp`. The builder owns an encoder and a flag; once a call has failed, further
adds are skipped, so a chain of calls can be written without looking at their results. `finalize`
reaches the encoder whatever the flag says.
-/

namespace Stunxx

structure StunMessageBuilder where
  valid : Bool := true
  encoder : Encoder
deriving DecidableEq

namespace StunMessageBuilder

variable [Platform]

/-- The constructor that is given a transaction ID, from the codes of the method and the class. -/
def new (method cls : UInt16) (transactionId : TransactionId) (buffer : Bytes) :
    StunMessageBuilder where
  encoder := .new (method ||| cls) transactionId buffer

/-- `add<Attr>` builds an object of its class and gives it to `addAttribute`; `addFingerprint` has
the same body with the encoder's `addFingerprint`. A MESSAGE-INTEGRITY object is dropped with its
digest. -/
def add (b : StunMessageBuilder) (c : AddCall) : StunMessageBuilder :=
  if !b.valid then b
  else
    let (result, encoder) := b.encoder.add c
    { valid := result.ok, encoder }

def addFingerprint (b : StunMessageBuilder) : StunMessageBuilder := b.add .fingerprint

def finalize (b : StunMessageBuilder) : StunMessageBuilder :=
  { b with encoder := b.encoder.finalize }

/-- A call, and what `valid()` says after it. -/
def step (b : StunMessageBuilder) (call : Call) : Bool × StunMessageBuilder :=
  let b :=
    match call with
    | .add c => b.add c
    | .finalize => b.finalize
  (b.valid, b)

/-! ## The builder passes its calls on -/

theorem add_of_valid {b : StunMessageBuilder} (h : b.valid = true) (c : AddCall) :
    b.add c = { valid := (b.encoder.add c).1.ok, encoder := (b.encoder.add c).2 } := by
  rw [add, if_neg (by simp [h])]

theorem add_of_not_valid {b : StunMessageBuilder} (h : b.valid = false) (c : AddCall) :
    b.add c = b := by
  rw [add, if_pos (by simp [h])]

/-- A call reaches the encoder, unless it is an add after a failed one. -/
theorem step_cases (b : StunMessageBuilder) (call : Call) :
    (b.step call).2.encoder = (b.encoder.step call).2 ∨
      ¬call = .finalize ∧ (b.step call).2.encoder = b.encoder := by
  cases call with
  | finalize => exact .inl rfl
  | add c =>
    have hstep : (b.step (.add c)).2 = b.add c := rfl
    rw [hstep]
    cases hvalid : b.valid with
    | true =>
      rw [add_of_valid hvalid]
      exact .inl rfl
    | false =>
      rw [add_of_not_valid hvalid]
      exact .inr ⟨nofun, rfl⟩

/-- **The builder is an encoder that misses some adds**: every run leaves the encoder of a run of
the encoder itself, on some of the calls and on every `finalize`. -/
theorem exists_run (b : StunMessageBuilder) (calls : List Call) :
    ∃ passed, passed.Sublist calls ∧ (.finalize ∈ calls → Call.finalize ∈ passed) ∧
      (Machine.run step b calls).2.encoder =
        (Machine.run Encoder.step b.encoder passed).2 := by
  obtain ⟨passed, hsub, hkept, hrun⟩ := Machine.run_skipping Encoder.step step_cases b calls
  exact ⟨passed, hsub, fun h => hkept .finalize h rfl, hrun⟩

end StunMessageBuilder

end Stunxx
