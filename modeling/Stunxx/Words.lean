import Stunxx.Lib.Digits
import Mathlib.Tactic.IntervalCases

/-!
# Words and byte order

The integer helpers of `Stun.hpp`: `byteswap` and the host/network conversions, the big-endian
reads and writes, and the memory image that a `memcpy` of an integer copies. The byte order of the
host and OpenSSL's `HMAC` are not part of the library; `Platform` carries them, so every statement
holds on little- and big-endian hosts and for any MAC.

`size_t` values are sizes and offsets of objects in memory and are natural numbers here; the
16-bit casts of the source are explicit.
-/

namespace Stunxx

open Digits

/-- The contents of a `std::span<std::uint8_t>`, a `std::vector` of bytes or a `std::string`. -/
abbrev Bytes := List UInt8

/-- `std::array<std::uint8_t, n>`. -/
abbrev ByteArrayN (n : Nat) := { bs : Bytes // bs.length = n }

/-- An array of zeros, the value `{}` initialises to. -/
def ByteArrayN.zero (n : Nat) : ByteArrayN n := ⟨List.replicate n 0, List.length_replicate⟩

/-- `std::endian::native`. -/
inductive Endian
  | little
  | big
deriving DecidableEq

/-- The `EVP_MD` descriptors the library passes to `HMAC`. -/
inductive EvpMd
  | sha1
  | sha256
deriving DecidableEq

/-- What the library takes from outside its own source: the byte order of the host, and OpenSSL's
`HMAC` of a key and a message (`none` is a null return, otherwise the bytes of the result). -/
class Platform where
  native : Endian
  hmac : EvpMd → Bytes → Bytes → Option Bytes

/-- A little-endian host on which one message is signed, with the digest given. -/
@[reducible] def Platform.ofDigest (digest : Bytes) : Platform where
  native := .little
  hmac _ _ _ := some digest

/-- The first four bytes of a string that has them. -/
theorem exists_four {bs : Bytes} (h : 4 ≤ bs.length) :
    ∃ b0 b1 b2 b3 rest, bs = b0 :: b1 :: b2 :: b3 :: rest := by
  match bs, h with
  | b0 :: b1 :: b2 :: b3 :: rest, _ => exact ⟨b0, b1, b2, b3, rest, rfl⟩

/-- `(n + 3) & ~3`: the next multiple of four. -/
def roundUp4 (n : Nat) : Nat := (n + 3) / 4 * 4

theorem le_roundUp4 (n : Nat) : n ≤ roundUp4 n := by
  unfold roundUp4
  omega

theorem roundUp4_lt (n : Nat) : roundUp4 n < n + 4 := by
  unfold roundUp4
  omega

theorem four_dvd_roundUp4 (n : Nat) : 4 ∣ roundUp4 n := ⟨(n + 3) / 4, Nat.mul_comm _ _⟩

/-! ## Big-endian reads and writes -/

/-- `read_be16` of the two bytes of its span. -/
def readBe16 (b0 b1 : UInt8) : UInt16 := (b0.toUInt16 <<< 8) ||| b1.toUInt16

/-- `read_be32` of the four bytes of its span. -/
def readBe32 (b0 b1 b2 b3 : UInt8) : UInt32 :=
  (b0.toUInt32 <<< 24) ||| (b1.toUInt32 <<< 16) ||| (b2.toUInt32 <<< 8) ||| b3.toUInt32

/-- The bytes `write_be16` stores. -/
def writeBe16 (value : UInt16) : Bytes := [(value >>> 8).toUInt8, (value &&& 0xFF).toUInt8]

/-- The bytes `write_be32` stores. -/
def writeBe32 (value : UInt32) : Bytes :=
  [(value >>> 24).toUInt8, (value >>> 16).toUInt8, (value >>> 8).toUInt8, (value &&& 0xFF).toUInt8]

@[simp] theorem length_writeBe16 (v : UInt16) : (writeBe16 v).length = 2 := rfl

@[simp] theorem length_writeBe32 (v : UInt32) : (writeBe32 v).length = 4 := rfl

theorem writeBe16_eq (v : UInt16) : writeBe16 v = beBytes 2 v.toNat := by
  simp only [writeBe16, beBytes, leBytes, List.reverse_cons, List.reverse_nil, List.nil_append,
    List.cons_append, List.cons.injEq, and_true]
  constructor <;> apply UInt8.toNat_inj.1
  · simp [Nat.shiftRight_eq_div_pow]
  · simpa using Nat.and_two_pow_sub_one_eq_mod (v.toNat % 256) 8

theorem writeBe16_ofNat (n : Nat) : writeBe16 (UInt16.ofNat n) = beBytes 2 n := by
  rw [writeBe16_eq, UInt16.toNat_ofNat']
  exact beBytes_mod 2 n

theorem writeBe32_eq (v : UInt32) : writeBe32 v = beBytes 4 v.toNat := by
  simp only [writeBe32, beBytes, leBytes, List.reverse_cons, List.reverse_nil, List.nil_append,
    List.cons_append, List.cons.injEq, and_true, Nat.div_div_eq_div_mul]
  refine ⟨?_, ?_, ?_, ?_⟩ <;> apply UInt8.toNat_inj.1
  · simp [Nat.shiftRight_eq_div_pow]
  · simp [Nat.shiftRight_eq_div_pow]
  · simp [Nat.shiftRight_eq_div_pow]
  · simpa using Nat.and_two_pow_sub_one_eq_mod (v.toNat % 256) 8

theorem toNat_readBe16 (b0 b1 : UInt8) : (readBe16 b0 b1).toNat = beValue [b0, b1] := by
  have h0 := b0.toNat_lt
  have h1 := b1.toNat_lt
  simp only [readBe16, beValue, leValue, List.reverse_cons, List.reverse_nil, List.nil_append,
    List.cons_append, UInt16.toNat_or, UInt16.toNat_shiftLeft, UInt8.toNat_toUInt16]
  have height : (8 : UInt16).toNat % 16 = 8 := rfl
  rw [height, Nat.shiftLeft_eq, Nat.mod_eq_of_lt (by omega),
    ← Nat.shiftLeft_eq, ← Nat.shiftLeft_add_eq_or_of_lt h1, Nat.shiftLeft_eq]
  omega

theorem readBe16_of_writeBe16 {v : UInt16} {b0 b1 : UInt8} (h : writeBe16 v = [b0, b1]) :
    readBe16 b0 b1 = v := by
  apply UInt16.toNat_inj.1
  rw [toNat_readBe16, ← h, writeBe16_eq, beValue_beBytes_of_lt v.toNat_lt]

/-- Reading a 16-bit count back, with what follows the value it counts. -/
theorem take_of_writeBe16 {b0 b1 : UInt8} {bs : Bytes}
    (h : writeBe16 (UInt16.ofNat bs.length) = [b0, b1]) (hlt : bs.length < 65536)
    (rest : Bytes) :
    (readBe16 b0 b1).toNat = bs.length ∧
      (bs ++ rest).take (readBe16 b0 b1).toNat = bs := by
  have hlen : (readBe16 b0 b1).toNat = bs.length := by
    rw [readBe16_of_writeBe16 h, UInt16.toNat_ofNat', Nat.mod_eq_of_lt hlt]
  exact ⟨hlen, by rw [hlen, List.take_left]⟩

theorem writeBe16_readBe16 (b0 b1 : UInt8) : writeBe16 (readBe16 b0 b1) = [b0, b1] := by
  rw [writeBe16_eq, toNat_readBe16]
  exact beBytes_beValue [b0, b1]

theorem writeBe16_inj {v w : UInt16} (h : writeBe16 v = writeBe16 w) : v = w := by
  rw [writeBe16_eq, writeBe16_eq] at h
  exact UInt16.toNat_inj.1 (beBytes_inj v.toNat_lt w.toNat_lt h)

theorem writeBe32_inj {v w : UInt32} (h : writeBe32 v = writeBe32 w) : v = w := by
  rw [writeBe32_eq, writeBe32_eq] at h
  exact UInt32.toNat_inj.1 (beBytes_inj v.toNat_lt w.toNat_lt h)

theorem writeBe32_readBe32 (b0 b1 b2 b3 : UInt8) :
    writeBe32 (readBe32 b0 b1 b2 b3) = [b0, b1, b2, b3] := by
  simp only [writeBe32, readBe32, List.cons.injEq, and_true]
  refine ⟨?_, ?_, ?_, ?_⟩ <;> apply UInt8.toBitVec_inj.1 <;> ext i hi <;>
    interval_cases i <;> simp

theorem readBe32_of_writeBe32 {v : UInt32} {b0 b1 b2 b3 : UInt8}
    (h : writeBe32 v = [b0, b1, b2, b3]) : readBe32 b0 b1 b2 b3 = v :=
  writeBe32_inj ((writeBe32_readBe32 b0 b1 b2 b3).trans h.symm)

theorem leBytes_uint16 (v : UInt16) : leBytes 2 v.toNat = [v.toUInt8, (v >>> 8).toUInt8] := by
  simp only [leBytes, List.cons.injEq, and_true]
  constructor <;> apply UInt8.toNat_inj.1 <;> simp [Nat.shiftRight_eq_div_pow]

theorem leBytes_uint32 (v : UInt32) :
    leBytes 4 v.toNat =
      [v.toUInt8, (v >>> 8).toUInt8, (v >>> 16).toUInt8, (v >>> 24).toUInt8] := by
  simp only [leBytes, Nat.div_div_eq_div_mul, List.cons.injEq, and_true]
  refine ⟨?_, ?_, ?_, ?_⟩ <;> apply UInt8.toNat_inj.1 <;> simp [Nat.shiftRight_eq_div_pow]

theorem leBytes_uint64 (v : UInt64) :
    leBytes 8 v.toNat =
      [v.toUInt8, (v >>> 8).toUInt8, (v >>> 16).toUInt8, (v >>> 24).toUInt8,
        (v >>> 32).toUInt8, (v >>> 40).toUInt8, (v >>> 48).toUInt8, (v >>> 56).toUInt8] := by
  simp only [leBytes, Nat.div_div_eq_div_mul, List.cons.injEq, and_true]
  refine ⟨?_, ?_, ?_, ?_, ?_, ?_, ?_, ?_⟩ <;> apply UInt8.toNat_inj.1 <;>
    simp [Nat.shiftRight_eq_div_pow]

/-! ## Byte order -/

section ByteOrder

variable [Platform]

def byteswap16 (value : UInt16) : UInt16 :=
  match Platform.native with
  | .big => value
  | .little => value <<< 8 ||| value >>> 8

def byteswap32 (value : UInt32) : UInt32 :=
  match Platform.native with
  | .big => value
  | .little =>
    ((value &&& 0x000000FF) <<< 24) ||| ((value &&& 0x0000FF00) <<< 8) |||
      ((value &&& 0x00FF0000) >>> 8) ||| ((value &&& 0xFF000000) >>> 24)

def byteswap64 (value : UInt64) : UInt64 :=
  match Platform.native with
  | .big => value
  | .little =>
    ((value &&& 0x00000000000000FF) <<< 56) ||| ((value &&& 0x000000000000FF00) <<< 40) |||
      ((value &&& 0x0000000000FF0000) <<< 24) ||| ((value &&& 0x00000000FF000000) <<< 8) |||
      ((value &&& 0x000000FF00000000) >>> 8) ||| ((value &&& 0x0000FF0000000000) >>> 24) |||
      ((value &&& 0x00FF000000000000) >>> 40) ||| ((value &&& 0xFF00000000000000) >>> 56)

def hostToBe16 (value : UInt16) : UInt16 := byteswap16 value
def hostToBe32 (value : UInt32) : UInt32 := byteswap32 value
def be32ToHost (value : UInt32) : UInt32 := byteswap32 value
def hostToBe64 (value : UInt64) : UInt64 := byteswap64 value
def be64ToHost (value : UInt64) : UInt64 := byteswap64 value

/-- The `n` bytes an `n`-byte integer occupies in memory. -/
def image (n v : Nat) : Bytes :=
  match Platform.native with
  | .little => leBytes n v
  | .big => beBytes n v

/-- The integer whose memory image is `bs`. -/
def load (bs : Bytes) : Nat :=
  match Platform.native with
  | .little => leValue bs
  | .big => beValue bs

@[simp] theorem length_image (n v : Nat) : (image n v).length = n := by
  unfold image
  split
  · exact length_leBytes n v
  · exact length_beBytes n v

theorem load_image {n v : Nat} (h : v < 256 ^ n) : load (image n v) = v := by
  unfold load image
  split
  · exact leValue_leBytes_of_lt h
  · exact beValue_beBytes_of_lt h

/-- The memory image of a host-to-network conversion is the big-endian bytes, on either host. -/
theorem image_hostToBe16 (v : UInt16) : image 2 (hostToBe16 v).toNat = beBytes 2 v.toNat := by
  unfold image hostToBe16 byteswap16
  cases Platform.native
  · simp only [beBytes, leBytes_uint16, List.reverse_cons, List.reverse_nil, List.nil_append,
      List.cons_append, List.cons.injEq, and_true]
    constructor <;> apply UInt8.toBitVec_inj.1 <;> ext i hi <;> interval_cases i <;> simp
  · rfl

theorem image_hostToBe32 (v : UInt32) : image 4 (hostToBe32 v).toNat = beBytes 4 v.toNat := by
  unfold image hostToBe32 byteswap32
  cases Platform.native
  · simp only [beBytes, leBytes_uint32, List.reverse_cons, List.reverse_nil, List.nil_append,
      List.cons_append, List.cons.injEq, and_true]
    refine ⟨?_, ?_, ?_, ?_⟩ <;> apply UInt8.toBitVec_inj.1 <;> ext i hi <;> interval_cases i <;>
      simp
  · rfl

theorem image_hostToBe64 (v : UInt64) : image 8 (hostToBe64 v).toNat = beBytes 8 v.toNat := by
  unfold image hostToBe64 byteswap64
  cases Platform.native
  · simp only [beBytes, leBytes_uint64, List.reverse_cons, List.reverse_nil, List.nil_append,
      List.cons_append, List.cons.injEq, and_true]
    refine ⟨?_, ?_, ?_, ?_, ?_, ?_, ?_, ?_⟩ <;> apply UInt8.toBitVec_inj.1 <;> ext i hi <;>
      interval_cases i <;> simp
  · rfl

theorem image_hostToBe16_eq (v : UInt16) : image 2 (hostToBe16 v).toNat = writeBe16 v := by
  rw [image_hostToBe16, writeBe16_eq]

theorem image_hostToBe32_eq (v : UInt32) : image 4 (hostToBe32 v).toNat = writeBe32 v := by
  rw [image_hostToBe32, writeBe32_eq]

theorem image_inj {n v w : Nat} (hv : v < 256 ^ n) (hw : w < 256 ^ n)
    (h : image n v = image n w) : v = w := by
  rw [← load_image hv, h, load_image hw]

theorem hostToBe16_inj {v w : UInt16} (h : hostToBe16 v = hostToBe16 w) : v = w := by
  have himage := congrArg (fun u : UInt16 => image 2 u.toNat) h
  simp only [image_hostToBe16_eq] at himage
  exact writeBe16_inj himage

theorem hostToBe16_zero : hostToBe16 0 = 0 := by
  unfold hostToBe16 byteswap16
  cases Platform.native <;> rfl

/-- A byte-swapped integer swaps back. -/
theorem be32ToHost_hostToBe32 (v : UInt32) : be32ToHost (hostToBe32 v) = v := by
  have hswap := image_hostToBe32 (hostToBe32 v)
  have hback := image_hostToBe32 v
  apply UInt32.toNat_inj.1
  apply image_inj (n := 4) (hostToBe32 (hostToBe32 v)).toNat_lt v.toNat_lt
  rw [hswap]
  unfold image at hback ⊢
  split at hback
  · rw [beBytes, hback, beBytes, List.reverse_reverse]
  · exact hback

theorem be64ToHost_hostToBe64 (v : UInt64) : be64ToHost (hostToBe64 v) = v := by
  have hswap := image_hostToBe64 (hostToBe64 v)
  have hback := image_hostToBe64 v
  apply UInt64.toNat_inj.1
  apply image_inj (n := 8) (hostToBe64 (hostToBe64 v)).toNat_lt v.toNat_lt
  rw [hswap]
  unfold image at hback ⊢
  split at hback
  · rw [beBytes, hback, beBytes, List.reverse_reverse]
  · exact hback

end ByteOrder

end Stunxx
