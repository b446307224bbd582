import Stunxx.AttributeTable
import Stunxx.Span

/-!
# The decoder

`Decoder.hpp` and `Decoder.cpp`. `decode` reads a buffer it does not trust, so its reads and its
subtractions are checked here: a read past the end of the buffer and a subtraction that would wrap
are a `Fault`. The loop terminates because an accepted attribute moves `offset_` forward.

The typed lookups have an overload for the classes whose `decode` takes the transaction ID; in the
model every class's `decode` is given it.
-/

namespace Stunxx

open Overlay

/-- What must not happen to `decode`. -/
inductive Fault
  | outOfBounds (index : Nat)
  | underflow
deriving DecidableEq

/-- A byte of a span. -/
def readByte (buffer : Bytes) (i : Nat) : Except Fault UInt8 :=
  match buffer[i]? with
  | some b => .ok b
  | none => .error (.outOfBounds i)

/-- The bytes of `buffer.subspan(i, n)`. -/
def readSpan (buffer : Bytes) (i n : Nat) : Except Fault (ByteArrayN n) :=
  if h : i + n ≤ buffer.length then .ok ⟨slice buffer i n, length_slice_of_le h⟩
  else .error (.outOfBounds (i + n - 1))

/-- `read_be16(buffer.subspan(i, 2))`. -/
def readBe16At (buffer : Bytes) (i : Nat) : Except Fault UInt16 := do
  let b0 ← readByte buffer i
  let b1 ← readByte buffer (i + 1)
  return readBe16 b0 b1

/-- `read_be32(buffer.subspan(i, 4))`. -/
def readBe32At (buffer : Bytes) (i : Nat) : Except Fault UInt32 := do
  let b0 ← readByte buffer i
  let b1 ← readByte buffer (i + 1)
  let b2 ← readByte buffer (i + 2)
  let b3 ← readByte buffer (i + 3)
  return readBe32 b0 b1 b2 b3

/-- `a - b` as a `size_t`. -/
def subSize (a b : Nat) : Except Fault Nat := if b ≤ a then .ok (a - b) else .error .underflow

structure Decoder where
  buffer : Bytes
  stunHeader : StunHeader := {}
  attributes : AttributeTable := AttributeTable.new
  unknownRequired : List UInt16 := []
  offset : Nat := 0
deriving DecidableEq

namespace Decoder

/-- The constructor. -/
def new (buffer : Bytes) : Decoder := { buffer }

/-- What the loop does with an attribute whose value fits: append its header, remember its type
if it is unknown and comprehension-required, move on by the padded length. -/
def accept (d : Decoder) (type len : UInt16) : Decoder :=
  { d with
    attributes := d.attributes.append { type, len, offset := d.offset + attrHeaderSize }
    unknownRequired :=
      if isComprehensionRequired type && !isKnownAttrType type then d.unknownRequired ++ [type]
      else d.unknownRequired
    offset := d.offset + (attrHeaderSize + roundUp4 len.toNat) }

/-- The loop over the attributes up to `messageEnd`. -/
def decodeLoop (messageEnd : Nat) (d : Decoder) : Except Fault (Bool × Decoder) :=
  if _h : d.offset + attrHeaderSize ≤ messageEnd then do
    let type ← readBe16At d.buffer d.offset
    let len ← readBe16At d.buffer (d.offset + 2)
    let rest ← subSize messageEnd d.offset
    let room ← subSize rest attrHeaderSize
    if room < len.toNat then return (false, d)
    decodeLoop messageEnd (d.accept type len)
  else return (true, d)
termination_by messageEnd - d.offset
decreasing_by
  simp only [accept, attrHeaderSize] at *
  omega

def decode (d : Decoder) : Except Fault (Bool × Decoder) :=
  if d.buffer.length < stunHeaderSize then return (false, d)
  else do
    let msgType ← readBe16At d.buffer 0
    let msgLength ← readBe16At d.buffer 2
    let cookie ← readBe32At d.buffer 4
    let transactionId ← readSpan d.buffer 8 stunTransactionIdSize
    let stunHeader := { msgType, msgLength, magicCookie := cookie, transactionId }
    let d := { d with stunHeader }
    if d.stunHeader.magicCookie ≠ magicCookie then return (false, d)
    if d.buffer.length < stunHeaderSize + d.stunHeader.msgLength.toNat then return (false, d)
    let d := { d with offset := stunHeaderSize }
    decodeLoop (stunHeaderSize + d.stunHeader.msgLength.toNat) d

/-- `Decoder::parse`. -/
def parse (buffer : Bytes) : Except Fault (Option Decoder) := do
  let (ok, d) ← (new buffer).decode
  return if ok then some d else none

/-- `Decoder::parseHeader`. -/
def parseHeader (buffer : Bytes) : Except Fault (Option StunHeader) :=
  if buffer.length < stunHeaderSize then return none
  else do
    let msgType ← readBe16At buffer 0
    let msgLength ← readBe16At buffer 2
    let cookie ← readBe32At buffer 4
    let transactionId ← readSpan buffer 8 stunTransactionIdSize
    if cookie ≠ magicCookie then return none
    return some { msgType, msgLength, magicCookie := cookie, transactionId }

/-! ## Accessors -/

/-- The code `static_cast` to `StunClass`. -/
def messageClass (d : Decoder) : UInt16 := d.stunHeader.msgType &&& stunClassMask

/-- The code `static_cast` to `StunMethod`. -/
def messageMethod (d : Decoder) : UInt16 := d.stunHeader.msgType &&& ~~~stunClassMask

def transactionId (d : Decoder) : TransactionId := d.stunHeader.transactionId

def messageLength (d : Decoder) : UInt16 := d.stunHeader.msgLength

def isResponse (d : Decoder) : Bool := Stunxx.isResponse d.messageClass

def isRequest (d : Decoder) : Bool := Stunxx.isRequest d.messageClass

def isIndication (d : Decoder) : Bool := Stunxx.isIndication d.messageClass

def hasUnknownRequired (d : Decoder) : Bool := !d.unknownRequired.isEmpty

def totalLength (d : Decoder) : Nat := d.offset

/-- `StunAttrType` has a fixed underlying type, so a caller can ask for any code. -/
def getAttributeHeader (d : Decoder) (type : UInt16) : Option AttrHeader := d.attributes.get type

/-! ## Typed lookups -/

section Lookup

variable (α : Type) [StunAttribute α]

/-- `getAttribute<AttrType>()`; only an empty span has no data. -/
def getAttribute (d : Decoder) : Option α :=
  if d.buffer.isEmpty then none
  else
    match d.attributes.get (StunAttribute.type α).code with
    | none => none
    | some header =>
      if d.buffer.length < header.offset + header.len.toNat then none
      else StunAttribute.decode d.transactionId (slice d.buffer header.offset header.len.toNat)

/-- The loop of `getAttributes` over the headers of the type, with the result so far. -/
def getAttributesLoop (d : Decoder) (result : List α) : List AttrHeader → List α
  | [] => result
  | header :: headers =>
    if d.buffer.length < header.offset + header.len.toNat then result
    else
      match StunAttribute.decode d.transactionId
          (slice d.buffer header.offset header.len.toNat) with
      | some decoded => getAttributesLoop d (result ++ [decoded]) headers
      | none => getAttributesLoop d result headers

/-- `getAttributes<AttrType>()`. -/
def getAttributes (d : Decoder) : List α :=
  if d.buffer.isEmpty then []
  else d.getAttributesLoop α [] (d.attributes.range (StunAttribute.type α).code)

end Lookup

end Decoder

end Stunxx
