import Stunxx.AttributeTable
import Stunxx.Encoder
import Stunxx.Lib.Machine
import Stunxx.Lib.Tlv
import Stunxx.Attributes.Fixed
import Stunxx.Attributes.Lists
import Stunxx.Attributes.XorAddress
import Stunxx.Attributes.Integrity
import Stunxx.Attributes.Registry
import Stunxx.Attributes.Text
import Stunxx.Decoder
import Stunxx.Verify.DecodeLoop
import Stunxx.Verify.DecodeSafety
import Stunxx.Verify.Framing
import Stunxx.Verify.EncoderStep
import Stunxx.Verify.EncoderInv
import Stunxx.Verify.Integrity
import Stunxx.Verify.SpanSafety
import Stunxx.Verify.FailedAdd
import Stunxx.Verify.Sent
import Stunxx.Verify.Finished
import Stunxx.Verify.RoundTrip
import Stunxx.ChannelData
import Stunxx.Verify.Demux
import Stunxx.Verify.Suffix
import Stunxx.Verify.Capacity
import Stunxx.Verify.Contents
import Stunxx.Verify.Redecode
import Stunxx.StunMessageBuilder
import Stunxx.Verify.BufferSafety
import Stunxx.Verify.LengthField
import Stunxx.Verify.Emitted
import Stunxx.Lib.Crc
import Stunxx.Verify.Checksum
import Stunxx.Verify.ChannelFrames
import Stunxx.Verify.XorAddress
import Stunxx.Verify.PasswordAlgorithms
import Stunxx.Verify.ErrorCodes
import Stunxx.Verify.ReservedBits
import Stunxx.Verify.UnknownResponse
import Stunxx.Verify.AddressMask
import Stunxx.Verify.Reading
import Stunxx.Verify.Reencode
import Stunxx.Verify.BuilderChain
import Stunxx.Verify.Hosts
import Stunxx.Verify.Checkpoints
import Stunxx.Verify.Tampering
import Stunxx.Lib.CrcPeriod
import Stunxx.Lib.CrcFlips
import Stunxx.Verify.BitFlips
import Stunxx.Verify.Authenticity
import Stunxx.Lib.Framer
import Stunxx.Verify.StreamReader
import Stunxx.Verify.Draft
import Stunxx.Verify.CheckedReads
import Stunxx.Attributes.Credentials
import Stunxx.Verify.ErrorResponse
import Stunxx.Verify.Reordering
