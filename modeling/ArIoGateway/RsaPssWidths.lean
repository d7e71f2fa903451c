import ArIoGateway.Foundation.Machine
import ArIoGateway.Foundation.Masks
import ArIoGateway.Signatures

/-!
# RSA-PSS and the width of the encoded message

The verification of RSASSA-PSS signatures as the standard has it, with a salt of any length, next to
the verifier of the gateway, which keeps a historical width of the encoded message.
-/

namespace ArIoGateway

open Octets Machine

/-- `MGF1` with SHA-256. -/
def mgf1 (suite : HashSuite) (seed : Bytes) (length : Nat) : Bytes :=
  ((List.range ((length + 31) / 32)).flatMap fun counter =>
    (suite.sha256 [seed, bigEndian 4 counter]).val).take length

/-- Set the leftmost bits of the first byte to zero. -/
def clearTop (count : Nat) : Bytes → Bytes
  | [] => []
  | first :: rest => (first &&& UInt8.ofNat (0xff >>> count)) :: rest

/-- The part of an encoded message in front of its hash, unmasked and with its leftmost bits set to
zero. -/
def dataBlock (suite : HashSuite) (encoded : Bytes) (length top : Nat) : Bytes :=
  clearTop top (xorBytes (encoded.take (length - 33))
    (mgf1 suite ((encoded.drop (length - 33)).take 32) (length - 33)))

/-- EMSA-PSS-VERIFY with SHA-256, step by step. -/
structure EmsaPssVerify (suite : HashSuite) (digest : FixedBytes 32) (encoded : Bytes)
    (emBits saltLen : Nat) : Prop where
  long : 32 + saltLen + 2 ≤ (emBits + 7) / 8
  trailer : encoded[(emBits + 7) / 8 - 1]? = some 0xbc
  top : clearTop (8 * ((emBits + 7) / 8) - emBits) (encoded.take ((emBits + 7) / 8 - 33)) =
    encoded.take ((emBits + 7) / 8 - 33)
  zeros : ∀ byte ∈ (dataBlock suite encoded ((emBits + 7) / 8)
    (8 * ((emBits + 7) / 8) - emBits)).take ((emBits + 7) / 8 - saltLen - 34), byte = 0
  separator : (dataBlock suite encoded ((emBits + 7) / 8)
    (8 * ((emBits + 7) / 8) - emBits))[(emBits + 7) / 8 - saltLen - 34]? = some 1
  hash : (encoded.drop ((emBits + 7) / 8 - 33)).take 32 = (suite.sha256 [List.replicate 8 0,
    digest.val, (dataBlock suite encoded ((emBits + 7) / 8)
      (8 * ((emBits + 7) / 8) - emBits)).drop ((emBits + 7) / 8 - saltLen - 33)]).val

/-- RSASSA-PSS-VERIFY with the public exponent 65537. -/
structure RsassaPssVerify (suite : HashSuite) (modulus : Nat) (signature : Bytes)
    (digest : FixedBytes 32) (saltLen : Nat) : Prop where
  width : signature.length = (modulus.size + 7) / 8
  below : ofBigEndian signature < modulus
  fits : ofBigEndian signature ^ 65537 % modulus < 256 ^ ((modulus.size - 1 + 7) / 8)
  encoded : EmsaPssVerify suite digest (bigEndian ((modulus.size - 1 + 7) / 8)
    (ofBigEndian signature ^ 65537 % modulus)) (modulus.size - 1) saltLen

theorem modpow_eq (base exponent modulus : Nat) :
    modpow base exponent modulus = base ^ exponent % modulus := by
  induction exponent using Nat.strongRecOn generalizing base with
  | ind exponent induction =>
      rw [modpow]
      by_cases zero : exponent = 0
      · rw [if_pos zero, zero, Nat.pow_zero]
      · rw [if_neg zero, induction (exponent / 2) (by omega)]
        have half : (base * base % modulus) ^ (exponent / 2) % modulus =
            base ^ (2 * (exponent / 2)) % modulus := by
          rw [← Nat.pow_mod, ← Nat.pow_two, ← Nat.pow_mul]
        simp only [half]
        by_cases odd : exponent % 2 = 1
        · rw [if_pos odd, Nat.mul_mod_mod, ← Nat.pow_succ',
            show (2 * (exponent / 2)).succ = exponent by omega]
        · rw [if_neg odd, show 2 * (exponent / 2) = exponent by omega]

/-- The masks of a data block are those of `MGF1`. -/
theorem unmask_eq (suite : HashSuite) (hash db : Bytes) :
    unmask suite hash 0 db = xorBytes db (mgf1 suite hash db.length) := by
  have blocks (count first : Nat) (bytes : Bytes) (few : bytes.length ≤ 32 * count) :
      unmask suite hash first bytes = xorBytes bytes ((List.range' first count).flatMap
        fun counter => (suite.sha256 [hash, bigEndian 4 counter]).val) := by
    induction count generalizing first bytes with
    | zero =>
        have none : bytes = [] := List.length_eq_zero_iff.mp (by omega)
        rw [none, unmask, if_pos rfl, xorBytes_nil]
    | succ count induction =>
        rw [unmask]
        by_cases none : bytes = []
        · rw [if_pos none, none, xorBytes_nil]
        · rw [if_neg none, List.range'_succ, List.flatMap_cons,
            induction _ _ (by rw [List.length_drop]; omega)]
          have mask := length_val (suite.sha256 [hash, bigEndian 4 first])
          by_cases full : 32 ≤ bytes.length
          · conv_rhs => rw [← List.take_append_drop 32 bytes]
            rw [xorBytes_append _ _ (by rw [mask, List.length_take]; omega)]
            rfl
          · rw [List.drop_of_length_le (by omega), List.take_of_length_le (by omega), xorBytes_nil,
              List.append_nil, ← @xorBytes_take bytes _ 32 (by omega),
              List.take_append_of_le_length (by rw [mask]), List.take_of_length_le (by rw [mask])]
            rfl
  rw [blocks ((db.length + 31) / 32) 0 db (by omega), mgf1, xorBytes_take le_rfl,
    List.range_eq_range']

/-- The separator is the first byte of a block that is not zero. -/
theorem findIdx_separator {db : Bytes} {separator : Nat} :
    db.findIdx? (· ≠ 0) = some separator ∧ db[separator]? = some 1 ↔
      (∀ byte ∈ db.take separator, byte = 0) ∧ db[separator]? = some 1 := by
  refine and_congr_left fun one => ?_
  obtain ⟨inside, same⟩ := List.getElem?_eq_some_iff.mp one
  rw [List.findIdx?_eq_some_iff_getElem]
  constructor
  · rintro ⟨_, _, zeros⟩ byte member
    obtain ⟨place, before, rfl⟩ := List.mem_take_iff_getElem.mp member
    simpa using zeros place (by omega)
  · intro zeros
    refine ⟨inside, by simp [same], fun place before => ?_⟩
    simpa using zeros _ (List.mem_take_iff_getElem.mpr ⟨place, by omega, rfl⟩)

theorem length_minimalBytes_le {value width : Nat} (positive : 0 < width) :
    (minimalBytes value).length ≤ width ↔ value < 256 ^ width := by
  rw [minimalBytes]
  by_cases zero : value = 0
  · rw [if_pos zero, zero]
    exact ⟨fun _ => Nat.pow_pos (by decide), fun _ => positive⟩
  · rw [if_neg zero, List.length_reverse, List.length_map, Nat.digits_length_le_iff (by decide)]

theorem padded_minimalBytes {value width : Nat} (fits : (minimalBytes value).length ≤ width)
    (bound : value < 256 ^ width) :
    List.replicate (width - (minimalBytes value).length) 0 ++ minimalBytes value =
      bigEndian width value := by
  apply ofBigEndian_inj
  · rw [List.length_append, List.length_replicate, length_bigEndian]
    omega
  · rw [ofBigEndian_zeros_append, ofBigEndian_minimalBytes, ofBigEndian_bigEndian bound]

/-- The width of the encoded message. -/
def encodedWidth (legacy : Bool) (bits : Nat) : Nat := if legacy then bits / 8 else (bits + 7) / 8

/-- The data block with the bits above the significant ones set to zero. -/
def significantBlock (suite : HashSuite) (encoded : Bytes) (length bits : Nat) : Bytes :=
  clearLeading ((bits - 1) % 8) (xorBytes (encoded.take (length - 33))
    (mgf1 suite ((encoded.drop (length - 33)).take 32) (length - 33)))

/-- The structure of an encoded message: zeros, a separator and a salt in the data block, the hash
of the digest with this salt, and the trailer. -/
structure PssStructure (suite : HashSuite) (digest : FixedBytes 32) (encoded : Bytes)
    (length bits separator : Nat) : Prop where
  trailer : encoded[length - 1]? = some 0xbc
  zeros : ∀ byte ∈ (significantBlock suite encoded length bits).take separator, byte = 0
  one : (significantBlock suite encoded length bits)[separator]? = some 1
  hash : (encoded.drop (length - 33)).take 32 = (suite.sha256 [List.replicate 8 0, digest.val,
    (significantBlock suite encoded length bits).drop (separator + 1)]).val

/-- The verifier accepts exactly the signatures of the public width whose power has this structure
in the width that the verifier uses. -/
theorem verifyRsaPssDigest_eq_ok {suite : HashSuite} {owner signature : Bytes}
    {digest : FixedBytes 32} {legacy : Bool} {label : String} :
    verifyRsaPssDigest suite owner signature digest legacy label = .ok () ↔
      (owner.length ≤ 512 ∧ signature.length ≤ 512) ∧
      34 ≤ encodedWidth legacy (ofBigEndian owner).size ∧
      signature.length = ((ofBigEndian owner).size + 7) / 8 ∧
      ofBigEndian signature < ofBigEndian owner ∧
      ofBigEndian signature ^ 65537 % ofBigEndian owner <
        256 ^ encodedWidth legacy (ofBigEndian owner).size ∧
      ∃ separator, PssStructure suite digest
        (bigEndian (encodedWidth legacy (ofBigEndian owner).size)
          (ofBigEndian signature ^ 65537 % ofBigEndian owner))
        (encodedWidth legacy (ofBigEndian owner).size) (ofBigEndian owner).size separator := by
  obtain ⟨width, widthSame⟩ : ∃ width,
    (if legacy = true then (ofBigEndian owner).size / 8 else ((ofBigEndian owner).size + 7) / 8) =
      width := ⟨_, rfl⟩
  obtain ⟨value, valueSame⟩ : ∃ value,
    ofBigEndian signature ^ 65537 % ofBigEndian owner = value := ⟨_, rfl⟩
  rw [verifyRsaPssDigest]
  simp only [Checked.bind_eq_ok, Checked.ensure_eq_ok, Checked.context_eq_ok, modpow_eq, valueSame,
    encodedWidth, widthSame, unmask_eq]
  have taken : ((bigEndian width value).take (width - 33)).length = width - 33 := by
    rw [List.length_take, length_bigEndian]
    omega
  constructor
  · rintro ⟨_, limits, _, ⟨long, exact⟩, _, below, _, fits, _, trailer, separator, found, _, one,
      hash⟩
    have bound := (length_minimalBytes_le (by omega)).mp fits
    rw [padded_minimalBytes fits bound] at trailer found one hash
    rw [taken] at found one hash
    obtain ⟨zeros, one⟩ := findIdx_separator.mp ⟨found, one⟩
    exact ⟨limits, long, exact, below, bound, separator, trailer, zeros, one, hash⟩
  · rintro ⟨limits, long, exact, below, bound, separator, trailer, zeros, one, hash⟩
    have fits := (length_minimalBytes_le (by omega)).mpr bound
    rw [padded_minimalBytes fits bound, taken]
    obtain ⟨found, one⟩ := findIdx_separator.mpr ⟨zeros, one⟩
    exact ⟨⟨⟩, limits, ⟨⟩, ⟨long, exact⟩, ⟨⟩, below, ⟨⟩, fits, ⟨⟩, trailer, separator, found, ⟨⟩, one,
      hash⟩

/-- In the width of the standard the leading bits are those of the standard. -/
theorem clearLeading_eq {bits : Nat} (bytes : Bytes) :
    clearLeading ((bits - 1) % 8) bytes =
      clearTop (8 * ((bits - 1 + 7) / 8) - (bits - 1)) bytes := by
  cases bytes with
  | nil => rfl
  | cons first rest =>
      rw [clearLeading, clearTop]
      by_cases whole : (bits - 1) % 8 = 0
      · rw [if_pos whole, show 8 * ((bits - 1 + 7) / 8) - (bits - 1) = 0 by omega]
        congr 1
        exact (UInt8.and_neg_one).symm
      · rw [if_neg whole,
          show 8 * ((bits - 1 + 7) / 8) - (bits - 1) = 8 - (bits - 1) % 8 by omega]

/-- Where the widths are the same, an encoded message that the standard accepts has the structure. -/
theorem EmsaPssVerify.structured {suite : HashSuite} {digest : FixedBytes 32} {encoded : Bytes}
    {bits saltLen : Nat} (accepted : EmsaPssVerify suite digest encoded (bits - 1) saltLen) :
    PssStructure suite digest encoded ((bits - 1 + 7) / 8) bits
      ((bits - 1 + 7) / 8 - saltLen - 34) := by
  have block : significantBlock suite encoded ((bits - 1 + 7) / 8) bits =
      dataBlock suite encoded ((bits - 1 + 7) / 8) (8 * ((bits - 1 + 7) / 8) - (bits - 1)) :=
    clearLeading_eq _
  have long := accepted.long
  refine ⟨accepted.trailer, ?_, ?_, ?_⟩
  · rw [block]
    exact accepted.zeros
  · rw [block]
    exact accepted.separator
  · rw [block,
      show (bits - 1 + 7) / 8 - saltLen - 34 + 1 = (bits - 1 + 7) / 8 - saltLen - 33 by omega]
    exact accepted.hash

namespace RsaPssWords

/-- `BigUint::modpow`, which panics for a modulus of zero. -/
def modpow (base exponent modulus : Nat) : Machine Nat :=
  if modulus = 0 then .error .panicked else .ok (ArIoGateway.modpow base exponent modulus)

/-- Clear the bits of the first byte above the significant ones. -/
def clearLeading (significant : Nat) (db : Bytes) : Machine Bytes :=
  if significant = 0 then pure db
  else do
    let first ← index db 0
    let shift ← sub 8 significant
    pure (db.set 0 (first &&& UInt8.ofNat (0xff >>> shift)))

/-- `verify_rsa_pss_digest`. -/
def verifyRsaPssDigest (suite : HashSuite) (owner signature : Bytes) (digest : FixedBytes 32)
    (legacy : Bool) (label : String) : Machine Unit := do
  check (Checked.ensure (owner.length ≤ 512 ∧ signature.length ≤ 512)
    s!"RSA {label} key or signature exceeds protocol limit")
  let modulus := ofBigEndian owner
  let bits := modulus.size
  let publicLen := (bits + 7) / 8
  let encodedLen := if legacy then bits / 8 else publicLen
  check (Checked.ensure (34 ≤ encodedLen ∧ signature.length = publicLen)
    s!"invalid RSA {label} signature length")
  let number := ofBigEndian signature
  check (Checked.ensure (number < modulus) s!"RSA {label} signature exceeds modulus")
  let power ← modpow number 65537 modulus
  let recovered := minimalBytes power
  check (Checked.ensure (recovered.length ≤ encodedLen)
    s!"RSA {label} encoded message exceeds historical width")
  let padding ← sub encodedLen recovered.length
  let encoded := List.replicate padding 0 ++ recovered
  let last ← sub encodedLen 1
  let trailer ← index encoded last
  check (Checked.ensure (trailer = 0xbc) s!"invalid RSA {label} PSS trailer")
  let dbLen ← sub encodedLen 33
  let db ← slice encoded 0 dbLen
  let tail ← slice encoded dbLen encoded.length
  let hash ← slice tail 0 32
  let low ← sub bits 1
  let db ← clearLeading (low % 8) (unmask suite hash 0 db)
  let separator ← check (Checked.context (db.findIdx? (· ≠ 0)) "RSA PSS salt separator missing")
  let byte ← index db separator
  check (Checked.ensure (byte = 1) s!"invalid RSA {label} PSS padding")
  let next ← add 64 separator 1
  let salt ← slice db next db.length
  let expected := suite.sha256 [List.replicate 8 0, digest.val, salt]
  check (Checked.ensure (hash = expected.val) s!"{label} signature verification failed")

theorem clearLeading_eq {significant : Nat} {db : Bytes} (filled : db ≠ [])
    (small : significant < 8) :
    clearLeading significant db = .ok (ArIoGateway.clearLeading significant db) := by
  cases db with
  | nil => exact absurd rfl filled
  | cons first rest =>
      rw [clearLeading, ArIoGateway.clearLeading]
      by_cases whole : significant = 0
      · rw [if_pos whole, if_pos whole]
        rfl
      · rw [if_neg whole, if_neg whole, sub_of_le small.le]
        rfl

theorem length_mgf1 (suite : HashSuite) (seed : Bytes) (length : Nat) :
    (mgf1 suite seed length).length = length := by
  have blocks : ((List.range ((length + 31) / 32)).flatMap fun counter =>
      (suite.sha256 [seed, bigEndian 4 counter]).val).length = (length + 31) / 32 * 32 := by
    simp [List.length_flatMap]
  rw [mgf1, List.length_take, blocks]
  omega

theorem length_unmask (suite : HashSuite) (hash db : Bytes) :
    (unmask suite hash 0 db).length = db.length := by
  rw [unmask_eq, length_xorBytes (length_mgf1 suite hash db.length).symm]

theorem length_clearLeading (significant : Nat) (db : Bytes) :
    (ArIoGateway.clearLeading significant db).length = db.length := by
  cases db <;> rfl

/-- No key and no signature make the verifier panic. -/
theorem verifyRsaPssDigest_eq (suite : HashSuite) (owner signature : Bytes)
    (digest : FixedBytes 32) (legacy : Bool) (label : String) :
    verifyRsaPssDigest suite owner signature digest legacy label =
      check (ArIoGateway.verifyRsaPssDigest suite owner signature digest legacy label) := by
  refine (Agrees.mono ?_ fun (_ _ : Unit) (_ : True) => rfl).eq_check
  rw [verifyRsaPssDigest, ArIoGateway.verifyRsaPssDigest]
  refine Agrees.ensure Iff.rfl rfl fun limits => ?_
  simp only
  obtain ⟨width, widthSame⟩ : ∃ width,
    (if legacy = true then (ofBigEndian owner).size / 8 else ((ofBigEndian owner).size + 7) / 8) =
      width := ⟨_, rfl⟩
  rw [widthSame]
  refine Agrees.ensure Iff.rfl rfl fun widths => ?_
  obtain ⟨long, _⟩ := widths
  refine Agrees.ensure Iff.rfl rfl fun below => ?_
  rw [modpow, if_neg (by omega), ok_bind]
  refine Agrees.ensure Iff.rfl rfl fun fits => ?_
  rw [sub_of_le fits, ok_bind]
  obtain ⟨recovered, recoveredSame⟩ : ∃ recovered, minimalBytes (ArIoGateway.modpow
    (ofBigEndian signature) 65537 (ofBigEndian owner)) = recovered := ⟨_, rfl⟩
  rw [recoveredSame] at fits ⊢
  obtain ⟨encoded, encodedSame⟩ : ∃ encoded,
    List.replicate (width - recovered.length) 0 ++ recovered = encoded := ⟨_, rfl⟩
  have whole : encoded.length = width := by
    rw [← encodedSame, List.length_append, List.length_replicate]
    omega
  rw [encodedSame, sub_of_le (by omega), ok_bind, index_of_lt (by omega), ok_bind]
  refine Agrees.ensure ?_ rfl fun _ => ?_
  · rw [List.getElem?_eq_getElem (by omega), Option.some_inj]
  rw [sub_of_le (by omega), ok_bind, slice_of_le (Nat.zero_le _) (by omega), ok_bind,
    slice_of_le (by omega) le_rfl, ok_bind]
  have tail : ((encoded.drop (width - 33)).take (encoded.length - (width - 33))) =
      encoded.drop (width - 33) := List.take_of_length_le (by rw [List.length_drop])
  have bits : (ofBigEndian owner).size ≠ 0 := by
    rw [Ne, Nat.size_eq_zero]
    omega
  rw [tail, slice_of_le (Nat.zero_le _) (by rw [List.length_drop]; omega), ok_bind,
    sub_of_le (by omega), ok_bind, List.drop_zero, List.drop_zero, Nat.sub_zero, Nat.sub_zero]
  have start : (encoded.take (width - 33)).length = width - 33 := by
    rw [List.length_take]
    omega
  have filled : unmask suite ((encoded.drop (width - 33)).take 32) 0 (encoded.take (width - 33)) ≠
      [] := by
    apply List.ne_nil_of_length_pos
    rw [length_unmask, start]
    omega
  rw [clearLeading_eq filled (Nat.mod_lt _ (by decide)), ok_bind]
  obtain ⟨db, dbSame⟩ : ∃ db, ArIoGateway.clearLeading (((ofBigEndian owner).size - 1) % 8)
    (unmask suite ((encoded.drop (width - 33)).take 32) 0 (encoded.take (width - 33))) = db :=
      ⟨_, rfl⟩
  have dbLength : db.length = width - 33 := by
    rw [← dbSame, length_clearLeading, length_unmask, start]
  rw [dbSame]
  refine (Agrees.of_check _).bind fun separator _ related => ?_
  obtain ⟨same, found⟩ := related
  subst same
  have inside : separator < db.length :=
    (List.findIdx?_eq_some_iff_getElem.mp (Checked.context_eq_ok.mp found)).1
  rw [index_of_lt inside, ok_bind]
  refine Agrees.ensure ?_ rfl fun _ => ?_
  · rw [List.getElem?_eq_getElem inside, Option.some_inj]
  have short : width < 2 ^ 63 := by
    have := ofBigEndian_lt owner
    have := (Nat.size_le.mpr (Nat.pow_mul 2 8 owner.length ▸ this) : (ofBigEndian owner).size ≤ _)
    split at widthSame <;> omega
  have salt : (db.drop (separator + 1)).take (db.length - (separator + 1)) =
      db.drop (separator + 1) := List.take_of_length_le (by rw [List.length_drop])
  rw [add_of_lt (by omega), ok_bind, slice_of_le (show separator + 1 ≤ db.length from inside) le_rfl,
    ok_bind, salt]
  exact (Agrees.of_check _).mono fun _ _ _ => trivial

end RsaPssWords

/-- A modulus that gives the verifier the width of the standard. -/
def StandardWidth (legacy : Bool) (bits : Nat) : Prop :=
  legacy = false ∧ bits % 8 ≠ 1 ∨ legacy = true ∧ bits % 8 ≤ 1

theorem size_ofBigEndian_le (bytes : Bytes) : (ofBigEndian bytes).size ≤ 8 * bytes.length := by
  rw [Nat.size_le, Nat.pow_mul]
  exact ofBigEndian_lt bytes

theorem le_ofBigEndian_cons (first : UInt8) (rest : Bytes) :
    first.toNat * 256 ^ rest.length ≤ ofBigEndian (first :: rest) := by
  induction rest using List.reverseRecOn with
  | nil => simp [ofBigEndian]
  | append_singleton rest byte induction =>
      rw [← List.cons_append, ofBigEndian_snoc, List.length_append, List.length_singleton,
        Nat.pow_succ, ← Nat.mul_assoc]
      omega

/-- A key whose first bit is set has as many bits as its bytes. -/
theorem size_of_aligned {owner : Bytes} (some : 0 < owner.length)
    (aligned : 128 ≤ (owner.headD 0).toNat) : (ofBigEndian owner).size = 8 * owner.length := by
  refine Nat.le_antisymm (size_ofBigEndian_le owner) ?_
  cases owner with
  | nil => cases some
  | cons first rest =>
      have high := le_ofBigEndian_cons first rest
      have half : 2 ^ (8 * rest.length + 7) ≤ first.toNat * 256 ^ rest.length := by
        rw [Nat.pow_add, Nat.pow_mul, Nat.mul_comm]
        exact Nat.mul_le_mul_right _ aligned
      have large := Nat.lt_size.mpr (half.trans high)
      rw [List.length_cons]
      omega

/-- In the width of the standard the verifier accepts what the standard accepts. -/
theorem verifyRsaPssDigest_of_standard {suite : HashSuite} {owner signature : Bytes}
    {digest : FixedBytes 32} {legacy : Bool} {label : String} {saltLen : Nat}
    (limit : owner.length ≤ 512) (widths : StandardWidth legacy (ofBigEndian owner).size)
    (accepted : RsassaPssVerify suite (ofBigEndian owner) signature digest saltLen) :
    verifyRsaPssDigest suite owner signature digest legacy label = .ok () := by
  have long := accepted.encoded.long
  have below := accepted.below
  have exact := accepted.width
  have size := size_ofBigEndian_le owner
  have some : (ofBigEndian owner).size ≠ 0 := by
    rw [Ne, Nat.size_eq_zero]
    omega
  have width : encodedWidth legacy (ofBigEndian owner).size =
      ((ofBigEndian owner).size - 1 + 7) / 8 := by
    rcases widths with ⟨rfl, other⟩ | ⟨rfl, few⟩
    · rw [encodedWidth, if_neg (by decide)]
      omega
    · rw [encodedWidth, if_pos rfl]
      omega
  rw [verifyRsaPssDigest_eq_ok, width]
  exact ⟨⟨limit, by omega⟩, by omega, exact, below, accepted.fits, _, accepted.encoded.structured⟩

/-- With a library that keeps to the standard, the fast path accepts nothing else. -/
theorem verifyRsaPss_eq_ok {crypto : CryptoSuite}
    (library : ∀ owner digest signature, crypto.rsaPss owner digest signature = true →
      ∃ saltLen, RsassaPssVerify crypto.toHashSuite (ofBigEndian owner) signature digest saltLen)
    (owner signature payload : Bytes) (label : String) :
    verifyRsaPss crypto owner signature payload label = .ok () ↔
      verifyRsaPssDigest crypto.toHashSuite owner signature (crypto.sha256 [payload]) false label =
        .ok () := by
  rw [verifyRsaPss]
  split
  · next fast =>
      refine iff_of_true rfl ?_
      rw [standardRsaPss, Bool.and_eq_true, decide_eq_true_eq] at fast
      obtain ⟨⟨long, limit, aligned, _⟩, accepted⟩ := fast
      obtain ⟨saltLen, standard⟩ := library _ _ _ accepted
      have size := size_of_aligned (by omega) aligned
      exact verifyRsaPssDigest_of_standard limit (.inl ⟨rfl, by omega⟩) standard
  · rfl

/-- A key of at most 512 bytes whose modulus gives the verifier the width of the standard makes it
accept whatever the standard accepts, with any length of the salt; what it accepts has the structure
of an encoded message in the width that it uses; it never panics; and the fast path through a library
that keeps to the standard accepts nothing else. -/
theorem rsa_pss_verifier (suite : HashSuite) (owner signature : Bytes) (digest : FixedBytes 32)
    (legacy : Bool) (label : String) :
    (owner.length ≤ 512 → StandardWidth legacy (ofBigEndian owner).size →
      ∀ saltLen, RsassaPssVerify suite (ofBigEndian owner) signature digest saltLen →
        verifyRsaPssDigest suite owner signature digest legacy label = .ok ()) ∧
    (verifyRsaPssDigest suite owner signature digest legacy label = .ok () →
      34 ≤ encodedWidth legacy (ofBigEndian owner).size ∧
      ofBigEndian signature < ofBigEndian owner ∧
      ∃ encoded separator, encoded.length = encodedWidth legacy (ofBigEndian owner).size ∧
        ofBigEndian encoded = ofBigEndian signature ^ 65537 % ofBigEndian owner ∧
        PssStructure suite digest encoded (encodedWidth legacy (ofBigEndian owner).size)
          (ofBigEndian owner).size separator) ∧
    RsaPssWords.verifyRsaPssDigest suite owner signature digest legacy label =
      check (verifyRsaPssDigest suite owner signature digest legacy label) ∧
    ∀ crypto : CryptoSuite, crypto.toHashSuite = suite →
      (∀ owner digest signature, crypto.rsaPss owner digest signature = true →
        ∃ saltLen, RsassaPssVerify suite (ofBigEndian owner) signature digest saltLen) →
      ∀ payload, verifyRsaPss crypto owner signature payload label = .ok () ↔
        verifyRsaPssDigest suite owner signature (suite.sha256 [payload]) false label = .ok () := by
  refine ⟨fun limit widths saltLen accepted => verifyRsaPssDigest_of_standard limit widths accepted,
    fun accepted => ?_, RsaPssWords.verifyRsaPssDigest_eq suite owner signature digest legacy label,
    ?_⟩
  · obtain ⟨_, long, _, below, bound, separator, structured⟩ := verifyRsaPssDigest_eq_ok.mp accepted
    exact ⟨long, below, _, separator, length_bigEndian _ _, ofBigEndian_bigEndian bound, structured⟩
  · rintro crypto rfl library payload
    exact verifyRsaPss_eq_ok library owner signature payload label

/-- The steps of the standard for a message with an empty salt. -/
theorem emsaPssVerify_unsalted {suite : HashSuite} {digest : FixedBytes 32} {encoded : Bytes}
    {emBits : Nat} (long : 34 ≤ (emBits + 7) / 8)
    (trailer : encoded[(emBits + 7) / 8 - 1]? = some 0xbc)
    (top : clearTop (8 * ((emBits + 7) / 8) - emBits) (encoded.take ((emBits + 7) / 8 - 33)) =
      encoded.take ((emBits + 7) / 8 - 33))
    (block : dataBlock suite encoded ((emBits + 7) / 8) (8 * ((emBits + 7) / 8) - emBits) =
      List.replicate ((emBits + 7) / 8 - 34) 0 ++ [1])
    (hash : (encoded.drop ((emBits + 7) / 8 - 33)).take 32 =
      (suite.sha256 [List.replicate 8 0, digest.val]).val) :
    EmsaPssVerify suite digest encoded emBits 0 := by
  have zeros : (List.replicate ((emBits + 7) / 8 - 34) (0 : UInt8)).length =
    (emBits + 7) / 8 - 34 := List.length_replicate
  refine ⟨long, trailer, top, ?_, ?_, ?_⟩
  · intro byte member
    rw [block, Nat.sub_zero, List.take_append_of_le_length (by rw [zeros])] at member
    exact List.eq_of_mem_replicate (List.mem_of_mem_take member)
  · rw [block, Nat.sub_zero, List.getElem?_append_right (by rw [zeros]), zeros, Nat.sub_self]
    rfl
  · have none : (List.replicate ((emBits + 7) / 8 - 34) (0 : UInt8) ++ [1]).drop ((emBits + 7) / 8 - 33) =
        ([] : Bytes) := by
      apply List.drop_of_length_le
      rw [List.length_append, zeros, List.length_singleton]
      omega
    rw [block, Nat.sub_zero, none, hash]
    simp [HashSuite.sha256]

/-- A modulus of 273 bits, whose encoded messages are one byte shorter than it. -/
def unevenModulus : Nat := 3 ^ 172

/-- A signature for the modulus of 273 bits. -/
def unevenSignature : Bytes :=
  bigEndian 35 162740451133183177743065527594975395838442503587176645869560241136077849679226157

/-- A modulus of 272 bits. -/
def evenModulus : Nat := 3 ^ 171

/-- A signature for the modulus of 272 bits. -/
def evenSignature : Bytes :=
  bigEndian 34 1272474932813768160690948243021906413223313509993827403062522144815925529070370827

/-- A signature for the modulus of 272 bits whose encoded message has its leftmost bit set. -/
def leadingSignature : Bytes :=
  bigEndian 34 1986060158705217306820251352742503821388068034033550028234142822133216246319583372

theorem length_plain (byte : UInt8) : (List.replicate 32 byte).length = 32 := List.length_replicate

/-- A digest of one byte all through. -/
def plainDigest (byte : UInt8) : FixedBytes 32 := ⟨List.replicate 32 byte, length_plain byte⟩

theorem uneven_standard :
    RsassaPssVerify sha2Suite unevenModulus unevenSignature (plainDigest 1) 0 := by
  refine ⟨by decide +kernel, by decide, ?_, ?_⟩
  · rw [← modpow_eq]
    decide +kernel
  · rw [← modpow_eq]
    exact emsaPssVerify_unsalted (by decide +kernel) (by decide +kernel) (by decide +kernel)
      (by decide +kernel) (by decide +kernel)

theorem even_standard :
    RsassaPssVerify sha2Suite evenModulus evenSignature (plainDigest 0) 0 := by
  refine ⟨by decide +kernel, by decide, ?_, ?_⟩
  · rw [← modpow_eq]
    decide +kernel
  · rw [← modpow_eq]
    exact emsaPssVerify_unsalted (by decide +kernel) (by decide +kernel) (by decide +kernel)
      (by decide +kernel) (by decide +kernel)

/-- A signature of the standard is refused for a modulus of 273 bits and for a key that is longer than
512 bytes, and one is accepted whose encoded message has its leftmost bit set. -/
theorem rsa_pss_parts_from_standard :
    (RsassaPssVerify sha2Suite unevenModulus unevenSignature (plainDigest 1) 0 ∧
      ofBigEndian (bigEndian 35 unevenModulus) = unevenModulus ∧
      verifyRsaPssDigest sha2Suite (bigEndian 35 unevenModulus) unevenSignature (plainDigest 1) false
        "data" ≠ .ok ()) ∧
    (RsassaPssVerify sha2Suite evenModulus evenSignature (plainDigest 0) 0 ∧
      ofBigEndian (bigEndian 513 evenModulus) = evenModulus ∧
      verifyRsaPssDigest sha2Suite (bigEndian 513 evenModulus) evenSignature (plainDigest 0) false
        "data" ≠ .ok ()) ∧
    verifyRsaPssDigest sha2Suite (bigEndian 34 evenModulus) leadingSignature (plainDigest 83) false
      "data" = .ok () ∧
    2 ^ 271 ≤ ofBigEndian leadingSignature ^ 65537 % evenModulus := by
  refine ⟨⟨uneven_standard, ofBigEndian_bigEndian (by decide), by decide +kernel⟩,
    ⟨even_standard, ofBigEndian_bigEndian (by decide +kernel), fun accepted => ?_⟩,
    by decide +kernel, ?_⟩
  · have limit := (verifyRsaPssDigest_eq_ok.mp accepted).1.1
    rw [length_bigEndian] at limit
    omega
  · rw [← modpow_eq]
    decide +kernel

theorem rsa_pss_verifier_even :
    verifyRsaPssDigest sha2Suite (bigEndian 34 evenModulus) evenSignature (plainDigest 0) false
      "data" = .ok () := by
  have number : ofBigEndian (bigEndian 34 evenModulus) = evenModulus :=
    ofBigEndian_bigEndian (by decide)
  refine (rsa_pss_verifier sha2Suite (bigEndian 34 evenModulus) evenSignature (plainDigest 0) false
    "data").1 (by rw [length_bigEndian]; decide) (.inl ⟨rfl, ?_⟩) 0 ?_
  · rw [number]
    decide +kernel
  · rw [number]
    exact even_standard

end ArIoGateway
