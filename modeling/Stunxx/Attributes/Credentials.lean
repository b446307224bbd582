import Stunxx.Attributes.Fixed
import Stunxx.Attributes.Integrity

/-!
# Keys

The key derivation of `MessageIntegrityAttrT.hpp` and the user hash of `UserHashAttr.hpp`: a digest
of the credentials, joined with colons. The result of `EVP_Digest` is not looked at, so a failure
leaves the zeros the array was made with. What a digest sees of the credentials are their pieces
between colons (`keys_agree_iff`): a colon can move from one of them to the next, and only names
and realms without colons are told apart (`eq_of_pieces`).
-/

namespace Stunxx

/-- OpenSSL's `EVP_Digest` with the two digests the library asks for; `none` is a failure. -/
class Digests where
  md5 : Bytes → Option (ByteArrayN 16)
  sha256 : Bytes → Option (ByteArrayN 32)

/-- The character `':'`. -/
def colon : UInt8 := 0x3A

/-- `template<const EVP_MD* (*HashFn)(), std::size_t DigestSize> computeKey`. -/
def computeKey {n : Nat} (hash : Bytes → Option (ByteArrayN n)) (username realm password : Bytes) :
    ByteArrayN n :=
  let input := username ++ [colon] ++ realm ++ [colon] ++ password
  (hash input).getD (ByteArrayN.zero n)

def computeMD5Key [Digests] (u r p : Bytes) : ByteArrayN 16 := computeKey Digests.md5 u r p

def computeSHA256Key [Digests] (u r p : Bytes) : ByteArrayN 32 := computeKey Digests.sha256 u r p

def computeUserHash [Digests] (username realm : Bytes) : ByteArrayN 32 :=
  let input := username ++ [colon] ++ realm
  (Digests.sha256 input).getD (ByteArrayN.zero 32)

/-- The parts of a string between its colons. -/
def pieces (bs : Bytes) : List Bytes := bs.splitOn colon

theorem pieces_injective : Function.Injective pieces := by
  intro bs bs' h
  have hjoin := congrArg (List.intercalate [colon]) h
  rwa [pieces, pieces, List.intercalate_splitOn, List.intercalate_splitOn] at hjoin

/-- A colon ends a piece. -/
theorem pieces_append (bs bs' : Bytes) :
    pieces (bs ++ [colon] ++ bs') = pieces bs ++ pieces bs' := by
  rw [List.append_assoc, List.singleton_append]
  exact List.splitOn_append_cons_self bs bs'

theorem pieces_of_not_mem {bs : Bytes} (h : colon ∉ bs) : pieces bs = [bs] :=
  List.splitOn_eq_singleton h

/-- Only equal inputs have equal digests under every function. -/
theorem digests_agree_iff {n : Nat} (hn : n ≠ 0) {input input' : Bytes} :
    (∀ hash : Bytes → Option (ByteArrayN n),
        (hash input).getD (ByteArrayN.zero n) = (hash input').getD (ByteArrayN.zero n)) ↔
      input = input' := by
  constructor
  · intro hagree
    by_contra hne
    have hones := hagree fun bs => if bs = input then
      some ⟨List.replicate n 1, List.length_replicate⟩ else none
    rw [if_pos rfl, if_neg (Ne.symm hne)] at hones
    have hval : List.replicate n (1 : UInt8) = List.replicate n 0 := congrArg Subtype.val hones
    exact absurd (List.replicate_right_inj hn |>.1 hval) (by decide)
  · rintro rfl hash
    rfl

section Agree

variable {u r p u' r' p' : Bytes}

/-- Without colons in the names and realms, the pieces tell the credentials. -/
theorem eq_of_pieces (hu : colon ∉ u) (hr : colon ∉ r) (hu' : colon ∉ u') (hr' : colon ∉ r')
    (h : pieces u ++ pieces r ++ pieces p = pieces u' ++ pieces r' ++ pieces p') :
    u = u' ∧ r = r' ∧ p = p' := by
  rw [pieces_of_not_mem hu, pieces_of_not_mem hr, pieces_of_not_mem hu', pieces_of_not_mem hr'] at h
  obtain ⟨hnames, hpass⟩ := List.append_inj h rfl
  obtain ⟨hname, hrealm⟩ := List.cons.inj hnames
  exact ⟨hname, (List.cons.inj hrealm).1, pieces_injective hpass⟩

/-- **What a key shows of the credentials**: two users have the same key under every digest exactly
when their names, realms and passwords have the same pieces, one after the other; likewise for the
user hash. -/
theorem keys_agree_iff :
    ((∀ _ : Digests, computeMD5Key u r p = computeMD5Key u' r' p') ↔
        pieces u ++ pieces r ++ pieces p = pieces u' ++ pieces r' ++ pieces p') ∧
      ((∀ _ : Digests, computeSHA256Key u r p = computeSHA256Key u' r' p') ↔
        pieces u ++ pieces r ++ pieces p = pieces u' ++ pieces r' ++ pieces p') ∧
      ((∀ _ : Digests, computeUserHash u r = computeUserHash u' r') ↔
        pieces u ++ pieces r = pieces u' ++ pieces r') := by
  simp only [← pieces_append, pieces_injective.eq_iff]
  refine ⟨?_, ?_, ?_⟩
  · rw [← digests_agree_iff (n := 16) (by decide)]
    exact ⟨fun h hash => h ⟨hash, fun _ => none⟩, fun h D => h D.md5⟩
  · rw [← digests_agree_iff (n := 32) (by decide)]
    exact ⟨fun h hash => h ⟨fun _ => none, hash⟩, fun h D => h D.sha256⟩
  · rw [← digests_agree_iff (n := 32) (by decide)]
    exact ⟨fun h hash => h ⟨fun _ => none, hash⟩, fun h D => h D.sha256⟩

end Agree

end Stunxx
