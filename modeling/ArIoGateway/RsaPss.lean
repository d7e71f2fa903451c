import ArIoGateway.Hashing
import Mathlib.Data.Nat.Size

/-!
# RSA-PSS with a salt of any length

The verifier of RSA-PSS signatures over a digest, which discovers the length of the salt.
-/

namespace ArIoGateway

open Octets

/-- `BigUint::modpow`. -/
def modpow (base exponent modulus : Nat) : Nat :=
  if exponent = 0 then 1 % modulus
  else
    let square := modpow (base * base % modulus) (exponent / 2) modulus
    if exponent % 2 = 1 then base * square % modulus else square
termination_by exponent
decreasing_by omega

/-- Unmask a data block with the mask that a hash generates, 32 bytes at a time. -/
def unmask (suite : HashSuite) (hash : Bytes) (counter : Nat) (db : Bytes) : Bytes :=
  if db = [] then []
  else
    let mask := suite.sha256 [hash, bigEndian 4 counter]
    List.zipWith (· ^^^ ·) (db.take 32) mask.val ++ unmask suite hash (counter + 1) (db.drop 32)
termination_by db.length
decreasing_by
  have := List.length_pos_of_ne_nil (by assumption : db ≠ [])
  rw [List.length_drop]
  omega

/-- Clear the bits of the first byte above the significant ones. -/
def clearLeading (significant : Nat) : Bytes → Bytes
  | [] => []
  | first :: rest =>
      (if significant = 0 then first else first &&& UInt8.ofNat (0xff >>> (8 - significant))) ::
        rest

/-- Check an RSA-PSS signature over a digest.  Before fork 2.4 the width of the encoded message is
rounded down. -/
def verifyRsaPssDigest (suite : HashSuite) (owner signature : Bytes) (digest : FixedBytes 32)
    (legacy : Bool) (label : String) : Checked Unit := do
  Checked.ensure (owner.length ≤ 512 ∧ signature.length ≤ 512)
    s!"RSA {label} key or signature exceeds protocol limit"
  let modulus := ofBigEndian owner
  let bits := modulus.size
  let publicLen := (bits + 7) / 8
  let encodedLen := if legacy then bits / 8 else publicLen
  Checked.ensure (34 ≤ encodedLen ∧ signature.length = publicLen)
    s!"invalid RSA {label} signature length"
  let number := ofBigEndian signature
  Checked.ensure (number < modulus) s!"RSA {label} signature exceeds modulus"
  let recovered := minimalBytes (modpow number 65537 modulus)
  Checked.ensure (recovered.length ≤ encodedLen)
    s!"RSA {label} encoded message exceeds historical width"
  let encoded := List.replicate (encodedLen - recovered.length) 0 ++ recovered
  Checked.ensure (encoded[encodedLen - 1]? = some 0xbc) s!"invalid RSA {label} PSS trailer"
  let dbLen := encodedLen - 33
  let hash := (encoded.drop dbLen).take 32
  let db := clearLeading ((bits - 1) % 8) (unmask suite hash 0 (encoded.take dbLen))
  let separator ← Checked.context (db.findIdx? (· ≠ 0)) "RSA PSS salt separator missing"
  Checked.ensure (db[separator]? = some 1) s!"invalid RSA {label} PSS padding"
  let expected := suite.sha256 [List.replicate 8 0, digest.val, db.drop (separator + 1)]
  Checked.ensure (hash = expected.val) s!"{label} signature verification failed"

/-- A key that verifies a signature has at least 34 bytes. -/
theorem length_owner_of_verifyRsaPssDigest {suite : HashSuite} {owner signature : Bytes}
    {digest : FixedBytes 32} {legacy : Bool} {label : String}
    (verified : verifyRsaPssDigest suite owner signature digest legacy label = .ok ()) :
    34 ≤ owner.length := by
  simp only [verifyRsaPssDigest, Checked.bind_eq_ok, Checked.ensure_eq_ok] at verified
  obtain ⟨_, _, _, ⟨wide, _⟩, _⟩ := verified
  have bits : (ofBigEndian owner).size ≤ 8 * owner.length := by
    rw [Nat.size_le, Nat.pow_mul]
    exact ofBigEndian_lt owner
  split at wide <;> omega

end ArIoGateway
