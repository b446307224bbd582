import Stunxx.Attributes.Registry

/-!
# The encoder

`Encoder.hpp` and `Encoder.cpp`. The message length is written in three places: before the HMAC of
a MESSAGE-INTEGRITY is taken, before the CRC of a FINGERPRINT is taken, and by `finalize` when
neither attribute was added.

`Encoder.add` and `Encoder.step` are the calls of a user as steps of a machine. A call's result is
what it returned and, for a MESSAGE-INTEGRITY, the caller's object as the call left it.
-/

namespace Stunxx

open Overlay

/-- The buffer, the header in network byte order, the size so far and the two flags. -/
structure Encoder where
  buffer : Memory
  stunHeader : StunHeader := {}
  offset : Nat := stunHeaderSize
  hasMessageIntegrity : Bool := false
  hasFingerprint : Bool := false
deriving DecidableEq

namespace Encoder

variable [Platform]

/-- The constructor that is given a transaction ID. -/
def new (type : UInt16) (transactionId : TransactionId) (buffer : Bytes) : Encoder where
  buffer := { bytes := buffer }
  stunHeader :=
    { msgType := hostToBe16 type, magicCookie := hostToBe32 magicCookie, transactionId }

def totalSize (e : Encoder) : Nat := e.offset

def stunSize (e : Encoder) : UInt16 := UInt16.ofNat (e.offset - stunHeaderSize)

/-- Store the length in the header and the header at the front of the buffer. -/
def writeLength (e : Encoder) (length : UInt16) : Encoder :=
  let stunHeader := { e.stunHeader with msgLength := hostToBe16 length }
  { e with stunHeader, buffer := e.buffer.store 0 stunHeader.bytes }

/-- `addAttribute` of an ordinary attribute. -/
def addAttribute {α : Type} [StunAttribute α] (e : Encoder) (attr : α) : Bool × Encoder :=
  let valueLen := StunAttribute.length attr
  let paddedLen := roundUp4 valueLen
  let totalLen := attrHeaderSize + paddedLen
  if e.buffer.bytes.length < e.offset + totalLen then (false, e)
  else
    let (ok, stores) := StunAttribute.encode attr totalLen
    let e := { e with buffer := e.buffer.storeAll e.offset stores }
    if !ok then (false, e) else (true, { e with offset := e.offset + totalLen })

/-- `addAttribute` of a MESSAGE-INTEGRITY: what it returns, the object it was given afterwards,
and the encoder. -/
def addMessageIntegrity {T : StunAttrType} (e : Encoder) (attr : MessageIntegrityAttrT T) :
    Bool × MessageIntegrityAttrT T × Encoder :=
  let totalLen := attrHeaderSize + MessageIntegrityAttrT.expectedSize T
  if e.buffer.bytes.length < e.offset + totalLen then (false, attr, e)
  else
    let e := e.writeLength (UInt16.ofNat (e.stunSize.toNat + totalLen))
    let messageUpToMi := e.buffer.bytes.take e.offset
    let (computed, attr) := attr.compute messageUpToMi
    if !computed then (false, attr, e)
    else
      let (ok, stores) := attr.encode totalLen
      let e := { e with buffer := e.buffer.storeAll e.offset stores }
      if !ok then (false, attr, e)
      else (true, attr, { e with hasMessageIntegrity := true, offset := e.offset + totalLen })

def addFingerprint (e : Encoder) : Bool × Encoder :=
  if e.hasFingerprint then (false, e)
  else
    let totalLen := attrHeaderSize + FingerprintAttr.valueSize
    if e.buffer.bytes.length < e.offset + totalLen then (false, e)
    else
      let e := e.writeLength (UInt16.ofNat (e.stunSize.toNat + totalLen))
      let msg := e.buffer.bytes.take e.offset
      let fp := FingerprintAttr.compute msg
      let (ok, stores) := fp.encode totalLen
      let e := { e with buffer := e.buffer.storeAll e.offset stores }
      if !ok then (false, e)
      else (true, { e with offset := e.offset + totalLen, hasFingerprint := true })

def finalize (e : Encoder) : Encoder :=
  if !e.hasFingerprint && !e.hasMessageIntegrity then e.writeLength e.stunSize else e

end Encoder

/-! ## Calls -/

/-- A call that adds something to the message. -/
inductive AddCall
  | ordinary (a : Attr)
  | integrity (kind : IntegrityKind) (a : kind.Obj)
  | fingerprint

/-- What a call returned; `attr` is a MESSAGE-INTEGRITY object as the call left it. -/
structure AddResult where
  ok : Bool
  attr : Option ((kind : IntegrityKind) × kind.Obj) := none

inductive Call
  | add (c : AddCall)
  | finalize

namespace Encoder

variable [Platform]

def add (e : Encoder) : AddCall → AddResult × Encoder
  | .ordinary a =>
    let (ok, e) := e.addAttribute a.obj
    ({ ok }, e)
  | .integrity kind a =>
    let (ok, a, e) := e.addMessageIntegrity a
    ({ ok, attr := some ⟨kind, a⟩ }, e)
  | .fingerprint =>
    let (ok, e) := e.addFingerprint
    ({ ok }, e)

def step (e : Encoder) : Call → AddResult × Encoder
  | .add c => e.add c
  | .finalize => ({ ok := true }, e.finalize)

end Encoder

end Stunxx
