import ArIoGateway.BlockHeader
import ArIoGateway.DeepHash
import ArIoGateway.Merkle
import ArIoGateway.Objects
import ArIoGateway.RsaPss

/-!
# Transactions

The check of a transaction against its identifier and signature, and what the digest that is
signed determines.
-/

namespace ArIoGateway

open NestedHash Octets

/-- A tag of a transaction as it is parsed. -/
structure Tag where
  name : String
  value : String

/-- A transaction as it is parsed. -/
structure Transaction where
  format : UInt8
  id : String
  lastTx : String
  owner : String
  tags : List Tag
  target : String
  quantity : String
  dataSize : String := ""
  dataRoot : String := ""
  reward : String
  signature : String
  data : String := ""
  denomination : Nat := 0

/-- The fields of a transaction that its digest may cover, decoded. -/
structure SignedFields where
  format : UInt8
  denomination : Nat
  owner : Bytes
  target : Bytes
  anchor : Bytes
  quantity : String
  reward : String
  tags : List (Bytes × Bytes)
  data : Bytes
  dataSize : Nat
  dataRoot : Bytes
deriving DecidableEq

/-- A verified transaction, with its data when it is inline. -/
structure VerifiedTransaction where
  metadata : ObjectMetadata
  inlineData : Option Bytes

/-- `inline_data_root`. -/
def inlineDataRoot (suite : HashSuite) (data : Bytes) : Checked (FixedBytes 32) :=
  let row := (List.range (data.length / maxChunkSize + 1)).map fun index =>
    let start := index * maxChunkSize
    let finish := min (start + maxChunkSize) data.length
    let chunk := (data.take finish).drop start
    (hashLeaf suite (suite.sha256 [chunk]).val (note finish).val, finish)
  Checked.context (merkleRoot suite row) "inline data always has a leaf"

/-- The size and the root of the data.  Format 1 signs neither, so both are recomputed. -/
def dataCommitment (suite : HashSuite) (transaction : Transaction) (data suppliedRoot : Bytes) :
    Checked (Nat × Bytes) :=
  if transaction.format = 1 then do
    let root ← inlineDataRoot suite data
    pure (data.length, root.val)
  else do
    let digits ← canonicalUnsigned transaction.dataSize "transaction data size"
    let size ← (parseU128 digits "").mapError fun _ => "number too large to fit in target type"
    Checked.ensure ((size = 0 ↔ suppliedRoot = []) ∧ suppliedRoot.length ≤ 32)
      "transaction data size and root disagree"
    Checked.ensure (size ≠ 0 ∨ data = []) "empty transaction has nonempty inline data"
    pure (size, suppliedRoot)

/-- The fields behind the owner. -/
def signedFields (suite : HashSuite) (transaction : Transaction) (owner : Bytes) :
    Checked SignedFields := do
  let target ← decodeB64 transaction.target "transaction target"
  let anchor ← decodeB64 transaction.lastTx "transaction anchor"
  let quantity ← canonicalUnsigned transaction.quantity "transaction quantity"
  let reward ← canonicalUnsigned transaction.reward "transaction reward"
  let tags ← transaction.tags.mapM fun tag => do
    pure (← decodeB64 tag.name "tag name", ← decodeB64 tag.value "tag value")
  let data ← decodeB64 transaction.data "transaction data"
  let suppliedRoot ← decodeB64 transaction.dataRoot "transaction data root"
  let (dataSize, dataRoot) ← dataCommitment suite transaction data suppliedRoot
  pure
    { format := transaction.format
      denomination := transaction.denomination
      owner, target, anchor, quantity, reward, tags, data, dataSize, dataRoot }

/-- Whether the owner is recovered from an ECDSA signature; such an owner is not signed. -/
def SignedFields.ecdsa (fields : SignedFields) : Bool := fields.owner = []

/-- The digest that is signed. -/
def SignedFields.digest (suite : HashSuite) (fields : SignedFields) : FixedBytes 32 :=
  if fields.format = 1 ∧ fields.denomination = 0 then
    suite.sha256 ([fields.owner, fields.target, fields.data, utf8 fields.quantity,
      utf8 fields.reward, fields.anchor] ++ fields.tags.flatMap fun tag => [tag.1, tag.2])
  else
    let tagHashes := fields.tags.map fun tag =>
      deepHashList suite [deepHashBlob suite tag.1, deepHashBlob suite tag.2]
    let hashes :=
      (if 0 < fields.denomination then
        [deepHashBlob suite (utf8 (decimalString fields.denomination))] else []) ++
      (if fields.format = 2 then [deepHashBlob suite (utf8 "2")] else []) ++
      (if fields.ecdsa then [] else [deepHashBlob suite fields.owner]) ++
      [deepHashBlob suite fields.target] ++
      (if fields.format = 1 then [deepHashBlob suite fields.data] else []) ++
      [deepHashBlob suite (utf8 fields.quantity), deepHashBlob suite (utf8 fields.reward),
        deepHashBlob suite fields.anchor, deepHashList suite tagHashes] ++
      (if fields.format = 2 then
        [deepHashBlob suite (utf8 (decimalString fields.dataSize)),
          deepHashBlob suite fields.dataRoot] else [])
    suite.sha256 [(deepHashList suite hashes).val]

/-- The fields that the digest of a transaction is taken of. -/
def decodedFields (suite : HashSuite) (transaction : Transaction) : Checked SignedFields := do
  signedFields suite transaction (← decodeB64 transaction.owner "transaction owner")

/-- The digest of a transaction. -/
def transactionDigest (suite : HashSuite) (transaction : Transaction) :
    Checked (FixedBytes 32) := do
  pure ((← decodedFields suite transaction).digest suite)

/-- The order of the group of secp256k1. -/
def secp256k1Order : Nat :=
  0xfffffffffffffffffffffffffffffffebaaedce6af48a03bbfd25e8cd0364141

/-- Recover the compressed key of an ECDSA signature with a low second half.  The recovery itself
is `recover`. -/
def recoverEcdsa (recover : FixedBytes 32 → Bytes → UInt8 → Option Bytes)
    (digest : FixedBytes 32) (signature : Bytes) : Checked Bytes := do
  Checked.ensure (signature.length = 65) "invalid ECDSA transaction signature length"
  let recovery := signature.getD 64 0
  Checked.ensure (recovery.toNat < 4) "invalid ECDSA transaction recovery ID"
  let compact := signature.take 64
  let first := ofBigEndian (compact.take 32)
  let second := ofBigEndian (compact.drop 32)
  Checked.ensure (0 < first ∧ first < secp256k1Order ∧ 0 < second ∧ second < secp256k1Order)
    "invalid ECDSA transaction signature"
  Checked.ensure (second ≤ secp256k1Order / 2) "noncanonical ECDSA transaction signature"
  Checked.context (recover digest compact recovery) "ECDSA transaction signature recovery failed"

/-- Check the signature over the digest and give the key of the signer. -/
def signerKey (suite : HashSuite) (recover : FixedBytes 32 → Bytes → UInt8 → Option Bytes)
    (fields : SignedFields) (signature : Bytes) (previousHeight : Nat) : Checked Bytes :=
  let digest := fields.digest suite
  if fields.ecdsa then recoverEcdsa recover digest signature
  else do
    verifyRsaPssDigest suite fields.owner signature digest (previousHeight < fork24Height)
      "transaction"
    pure fields.owner

/-- `verify_transaction`. -/
def verifyTransaction (suite : HashSuite)
    (recover : FixedBytes 32 → Bytes → UInt8 → Option Bytes) (transaction : Transaction)
    (expectedId : String) (height : Nat) : Checked VerifiedTransaction := do
  let previousHeight := height - 1
  Checked.ensure (transaction.format = 1 ∨ transaction.format = 2)
    "unsupported transaction format"
  Checked.ensure (transaction.format = 1 ∨ fork20Height ≤ previousHeight)
    "format-2 transaction before fork 2.0"
  Checked.ensure (transaction.denomination = 0 ∨ fork26Height ≤ height)
    "transaction denomination before fork 2.6"
  let id ← decodeFixed 32 transaction.id "transaction ID"
  Checked.ensure ((utf8 transaction.owner).length ≤ 683 ∧
      (utf8 transaction.signature).length ≤ 683)
    "transaction key or signature exceeds protocol limit"
  let expected ← decodeFixed 32 expectedId "expected transaction ID"
  Checked.ensure (id = expected) "transaction ID mismatch"
  let signature ← decodeB64 transaction.signature "transaction signature"
  Checked.ensure (id = suite.sha256 [signature]) "transaction ID is not the signature hash"
  let owner ← decodeB64 transaction.owner "transaction owner"
  Checked.ensure (owner.length ≤ 512 ∧ signature.length ≤ 512)
    "transaction key or signature exceeds protocol limit"
  Checked.ensure (owner ≠ [] ∨ (transaction.format = 2 ∧ fork29Height ≤ previousHeight))
    "ECDSA transaction before fork 2.9 or in format 1"
  let fields ← signedFields suite transaction owner
  let ownerKey ← signerKey suite recover fields signature previousHeight
  let ownerAddress :=
    if fields.ecdsa = false ∧ ownerKey.length = 32 then ownerKey
    else (suite.sha256 [ownerKey]).val
  pure
    { metadata :=
        { id := id.val
          kind := 0
          signature
          anchor := fields.anchor
          ownerAddress
          ownerPublicKey := ownerKey
          target := fields.target
          dataSize := fields.dataSize
          contentType := optionalTextTag fields.tags (utf8 "Content-Type")
          contentEncoding := optionalTextTag fields.tags (utf8 "Content-Encoding")
          signatureType := if fields.ecdsa then 2 else 1
          format := some transaction.format.toNat
          quantity := some fields.quantity
          reward := some fields.reward
          denomination := some transaction.denomination
          dataRoot := some fields.dataRoot
          tags := fields.tags }
      inlineData :=
        if transaction.format = 1 ∨ fields.dataSize = 0 then some fields.data else none }

/-- The part of the signed list for the denomination. -/
def SignedFields.denominationPart (fields : SignedFields) : List Nested :=
  if 0 < fields.denomination then [.blob (utf8 (decimalString fields.denomination))] else []

/-- The part of the signed list for the owner. -/
def SignedFields.ownerPart (fields : SignedFields) : List Nested :=
  if fields.ecdsa then [] else [.blob fields.owner]

/-- The parts of the signed list in front of the target. -/
def SignedFields.leading (fields : SignedFields) : List Nested :=
  fields.denominationPart ++ (if fields.format = 2 then [.blob (utf8 "2")] else []) ++
    fields.ownerPart

/-- The signed list of the fields. -/
def SignedFields.nested (fields : SignedFields) : Nested :=
  .list (fields.leading ++ [.blob fields.target] ++
    (if fields.format = 1 then [.blob fields.data] else []) ++
    [.blob (utf8 fields.quantity), .blob (utf8 fields.reward), .blob fields.anchor,
      .list (fields.tags.map nestedTag)] ++
    if fields.format = 2 then
      [.blob (utf8 (decimalString fields.dataSize)), .blob fields.dataRoot]
    else [])

/-- Whether the digest is a deep hash. -/
def SignedFields.Deep (fields : SignedFields) : Prop :=
  fields.format = 2 ∨ (fields.format = 1 ∧ 0 < fields.denomination)

theorem SignedFields.digest_of_deep {suite : HashSuite} {fields : SignedFields}
    (deep : fields.Deep) :
    fields.digest suite = suite.digest256 (deepHash suite fields.nested).val := by
  have notRaw : ¬(fields.format = 1 ∧ fields.denomination = 0) := by
    rintro ⟨first, zero⟩
    rcases deep with second | ⟨_, positive⟩
    · rw [first] at second
      exact absurd second (by decide)
    · omega
  have tags := deepHashTags_eq suite fields.tags
  have mapIf : ∀ (condition : Prop) [Decidable condition] (whole : List Nested),
      (if condition then whole else []).map (deepHash suite) =
        if condition then whole.map (deepHash suite) else [] := by
    intro condition _ whole
    split <;> rfl
  have mapUnless : ∀ (condition : Prop) [Decidable condition] (whole : List Nested),
      (if condition then [] else whole).map (deepHash suite) =
        if condition then [] else whole.map (deepHash suite) := by
    intro condition _ whole
    split <;> rfl
  rw [SignedFields.digest, if_neg notRaw, nested, ← deepHashList_eq, tags]
  simp only [HashSuite.sha256, leading, denominationPart, ownerPart, List.map_append, mapIf,
    mapUnless, List.map_cons, List.map_nil, deepHashBlob_eq, deepHashList_eq, List.flatten_cons, List.flatten_nil,
    List.append_nil]

/-- What equal digests determine. -/
structure SameSigned (left right : SignedFields) : Prop where
  format : left.format = right.format
  denomination : left.denomination = right.denomination
  ecdsa : left.ecdsa = right.ecdsa
  owner : left.owner = right.owner
  target : left.target = right.target
  quantity : left.quantity = right.quantity
  reward : left.reward = right.reward
  anchor : left.anchor = right.anchor
  tags : left.tags = right.tags
  dataSize : left.format = 2 → left.dataSize = right.dataSize
  dataRoot : left.format = 2 → left.dataRoot = right.dataRoot
  data : left.format = 1 → left.data = right.data

theorem ownerPart_inj {left right : SignedFields} (same : left.ownerPart = right.ownerPart) :
    left.owner = right.owner := by
  unfold SignedFields.ownerPart SignedFields.ecdsa at same
  by_cases leftEmpty : left.owner = [] <;> by_cases rightEmpty : right.owner = []
  · rw [leftEmpty, rightEmpty]
  · simp [leftEmpty, rightEmpty] at same
  · simp [leftEmpty, rightEmpty] at same
  · simpa [leftEmpty, rightEmpty] using same

theorem denominationPart_inj {left right : SignedFields}
    (same : left.denominationPart = right.denominationPart) :
    left.denomination = right.denomination := by
  unfold SignedFields.denominationPart at same
  rcases Nat.eq_zero_or_pos left.denomination with leftZero | leftPositive <;>
    rcases Nat.eq_zero_or_pos right.denomination with rightZero | rightPositive
  · rw [leftZero, rightZero]
  · simp [leftZero, rightPositive] at same
  · simp [leftPositive, rightZero] at same
  · simp only [leftPositive, rightPositive, if_true, List.cons.injEq, Nested.blob.injEq,
      and_true] at same
    exact decimalString_injective (utf8_injective same)

/-- A list of owners has at most one element, and no key is as short as the format field. -/
theorem ownerPart_ne_format {fields : SignedFields} {rest : List Nested}
    (key : fields.owner = [] ∨ 34 ≤ fields.owner.length) :
    fields.ownerPart ≠ .blob (utf8 "2") :: rest := by
  intro same
  unfold SignedFields.ownerPart SignedFields.ecdsa at same
  rcases key with empty | long
  · simp [empty] at same
  · split at same
    · cases same
    · obtain ⟨format, _⟩ := List.cons.inj same
      rw [Nested.blob.inj format] at long
      exact absurd long (by decide)

/-- The denomination and an owner that is a real key are determined by the parts in front of the
target. -/
theorem leading_inj {left right : SignedFields} (leftFormat : left.format = 2)
    (rightFormat : right.format = 2) (leftKey : left.owner = [] ∨ 34 ≤ left.owner.length)
    (rightKey : right.owner = [] ∨ 34 ≤ right.owner.length)
    (same : left.leading = right.leading) :
    left.denominationPart = right.denominationPart ∧ left.ownerPart = right.ownerPart := by
  have oneOrNone : ∀ fields : SignedFields, fields.denominationPart = [] ∨
      ∃ part, fields.denominationPart = [part] := by
    intro fields
    unfold SignedFields.denominationPart
    split
    · exact .inr ⟨_, rfl⟩
    · exact .inl rfl
  unfold SignedFields.leading at same
  rw [if_pos leftFormat, if_pos rightFormat] at same
  rcases oneOrNone left with leftNone | ⟨leftPart, leftOne⟩ <;>
    rcases oneOrNone right with rightNone | ⟨rightPart, rightOne⟩
  · rw [leftNone, rightNone] at same ⊢
    exact ⟨rfl, List.append_cancel_left same⟩
  · -- A missing denomination would make the left owner the format field of the right list.
    rw [leftNone, rightOne] at same
    exact (ownerPart_ne_format leftKey (List.cons.inj same).2).elim
  · rw [leftOne, rightNone] at same
    exact (ownerPart_ne_format rightKey (List.cons.inj same).2.symm).elim
  · rw [leftOne, rightOne] at same ⊢
    obtain ⟨parts, rest⟩ := List.cons.inj same
    exact ⟨by rw [parts], (List.cons.inj rest).2⟩

/-- Signed lists of real keys that are equal come from the same fields. -/
theorem sameSigned_of_nested {left right : SignedFields} (leftDeep : left.Deep)
    (rightDeep : right.Deep) (leftKey : left.owner = [] ∨ 34 ≤ left.owner.length)
    (rightKey : right.owner = [] ∨ 34 ≤ right.owner.length)
    (leftOwned : left.format = 1 → left.owner ≠ []) (rightOwned : right.format = 1 → right.owner ≠ [])
    (same : left.nested = right.nested) : SameSigned left right := by
  have two : (2 : UInt8) ≠ 1 := by decide
  have one : (1 : UInt8) ≠ 2 := by decide
  have same := Nested.list.inj same
  rcases leftDeep with leftFormat | ⟨leftFormat, leftPositive⟩ <;>
    rcases rightDeep with rightFormat | ⟨rightFormat, rightPositive⟩
  · -- Both lists end with seven common parts.
    simp only [leftFormat, rightFormat, two, if_false, if_true, List.append_nil,
      List.append_assoc] at same
    obtain ⟨leadings, rest⟩ := List.append_inj' same (by simp)
    obtain ⟨denominations, owners⟩ :=
      leading_inj leftFormat rightFormat leftKey rightKey leadings
    simp only [List.cons_append, List.nil_append, List.cons.injEq, Nested.blob.injEq,
      Nested.list.injEq, and_true] at rest
    obtain ⟨target, quantity, reward, anchor, tags, dataSize, dataRoot⟩ := rest
    have owner := ownerPart_inj owners
    exact
      { format := leftFormat.trans rightFormat.symm
        denomination := denominationPart_inj denominations
        ecdsa := by rw [SignedFields.ecdsa, SignedFields.ecdsa, owner]
        owner, target, anchor
        quantity := utf8_injective quantity
        reward := utf8_injective reward
        tags := List.map_injective_iff.mpr nestedTag_injective tags
        dataSize := fun _ => decimalString_injective (utf8_injective dataSize)
        dataRoot := fun _ => dataRoot
        data := fun format => absurd (leftFormat.symm.trans format) two }
  · -- Only lists of format 1 end with the tags.
    simp only [leftFormat, rightFormat, two, one, if_false, if_true, List.append_nil] at same
    simpa using congrArg List.getLast? same
  · simp only [leftFormat, rightFormat, two, one, if_false, if_true, List.append_nil] at same
    simpa using congrArg List.getLast? same
  · simp only [leftFormat, rightFormat, one, if_false, if_true, List.append_nil,
      SignedFields.leading, List.append_assoc] at same
    have leftOwner : left.ownerPart = [.blob left.owner] := by
      simp [SignedFields.ownerPart, SignedFields.ecdsa, leftOwned leftFormat]
    have rightOwner : right.ownerPart = [.blob right.owner] := by
      simp [SignedFields.ownerPart, SignedFields.ecdsa, rightOwned rightFormat]
    rw [leftOwner, rightOwner] at same
    obtain ⟨denominations, rest⟩ := List.append_inj' same (by simp)
    simp only [List.cons_append, List.nil_append, List.cons.injEq, Nested.blob.injEq,
      Nested.list.injEq, and_true] at rest
    obtain ⟨owner, target, data, quantity, reward, anchor, tags⟩ := rest
    exact
      { format := leftFormat.trans rightFormat.symm
        denomination := denominationPart_inj denominations
        ecdsa := by rw [SignedFields.ecdsa, SignedFields.ecdsa, owner]
        owner, target, anchor
        quantity := utf8_injective quantity
        reward := utf8_injective reward
        tags := List.map_injective_iff.mpr nestedTag_injective tags
        dataSize := fun format => absurd (leftFormat.symm.trans format) one
        dataRoot := fun format => absurd (leftFormat.symm.trans format) one
        data := fun _ => data }

/-- The decoded fields carry the format, the denomination and the owner they come from. -/
theorem signedFields_eq_ok {suite : HashSuite} {transaction : Transaction} {owner : Bytes}
    {fields : SignedFields} (decoded : signedFields suite transaction owner = .ok fields) :
    fields.format = transaction.format ∧ fields.denomination = transaction.denomination ∧
      fields.owner = owner := by
  simp only [signedFields, Checked.bind_eq_ok, Checked.pure_eq_ok] at decoded
  obtain ⟨_, _, _, _, _, _, _, _, _, _, _, _, _, _, _, _, rfl⟩ := decoded
  exact ⟨rfl, rfl, rfl⟩

/-- The key of a signer that is not recovered has at least 34 bytes. -/
theorem length_owner_of_signerKey {suite : HashSuite}
    {recover : FixedBytes 32 → Bytes → UInt8 → Option Bytes} {fields : SignedFields}
    {signature key : Bytes} {previousHeight : Nat}
    (signed : signerKey suite recover fields signature previousHeight = .ok key) :
    fields.owner = [] ∨ 34 ≤ fields.owner.length := by
  by_cases empty : fields.owner = []
  · exact .inl empty
  · have notEcdsa : fields.ecdsa = false := by simpa [SignedFields.ecdsa] using empty
    simp only [signerKey, notEcdsa, Bool.false_eq_true, if_false, Checked.bind_eq_ok] at signed
    obtain ⟨_, verified, _⟩ := signed
    exact .inr (length_owner_of_verifyRsaPssDigest verified)

/-- What acceptance of a transaction says about the fields that it signs. -/
theorem verifyTransaction_eq_ok {suite : HashSuite}
    {recover : FixedBytes 32 → Bytes → UInt8 → Option Bytes} {transaction : Transaction}
    {expectedId : String} {height : Nat} {verified : VerifiedTransaction}
    (accepted : verifyTransaction suite recover transaction expectedId height = .ok verified) :
    (transaction.format = 1 ∨ transaction.format = 2) ∧
      ∃ owner fields, decodeB64 transaction.owner "transaction owner" = .ok owner ∧
        signedFields suite transaction owner = .ok fields ∧
        (fields.owner = [] ∨ 34 ≤ fields.owner.length) ∧
        (fields.format = 1 → fields.owner ≠ []) := by
  simp only [verifyTransaction, Checked.bind_eq_ok, Checked.ensure_eq_ok] at accepted
  obtain ⟨_, format, _, _, _, _, _, _, _, _, _, _, _, _, _, _, _, _, owner, decoded, _, _, _,
    ecdsa, fields, signed, ownerKey, signer, _⟩ := accepted
  obtain ⟨sameFormat, _, sameOwner⟩ := signedFields_eq_ok signed
  refine ⟨format, owner, fields, decoded, signed, length_owner_of_signerKey signer, ?_⟩
  rw [sameFormat, sameOwner]
  intro first
  rcases ecdsa with present | ⟨second, _⟩
  · exact present
  · rw [first] at second
    exact absurd second (by decide)

/-- The messages that the deep hash of a transaction hashes. -/
def transactionMessages (suite : HashSuite) (transaction : Transaction) : List Bytes :=
  match decodedFields suite transaction with
  | .ok fields => deepMessages suite fields.nested
  | .error _ => []

/-- The message of the digest of a transaction. -/
def digestMessages (suite : HashSuite) (transaction : Transaction) : List Bytes :=
  match decodedFields suite transaction with
  | .ok fields => [(deepHash suite fields.nested).val]
  | .error _ => []

/-- Two accepted transactions with one deep digest sign the same fields. -/
theorem transaction_signature_binding (suite : HashSuite)
    (recover : FixedBytes 32 → Bytes → UInt8 → Option Bytes) (left right : Transaction)
    (leftId rightId : String) (leftHeight rightHeight : Nat)
    (leftVerified rightVerified : VerifiedTransaction) (digest : FixedBytes 32)
    (leftAccepted : verifyTransaction suite recover left leftId leftHeight = .ok leftVerified)
    (rightAccepted : verifyTransaction suite recover right rightId rightHeight = .ok rightVerified)
    (leftDeep : left.format = 2 ∨ (left.format = 1 ∧ 0 < left.denomination))
    (rightDeep : right.format = 2 ∨ (right.format = 1 ∧ 0 < right.denomination))
    (free256 : Collision.Free suite.digest256
      (digestMessages suite left ++ digestMessages suite right))
    (free384 : Collision.Free suite.digest384
      (transactionMessages suite left ++ transactionMessages suite right))
    (leftDigest : transactionDigest suite left = .ok digest)
    (rightDigest : transactionDigest suite right = .ok digest) :
    ∃ leftFields rightFields, decodedFields suite left = .ok leftFields ∧
      decodedFields suite right = .ok rightFields ∧ SameSigned leftFields rightFields := by
  obtain ⟨_, leftOwner, leftFields, leftDecoded, leftSigned, leftKey, leftOwned⟩ :=
    verifyTransaction_eq_ok leftAccepted
  obtain ⟨_, rightOwner, rightFields, rightDecoded, rightSigned, rightKey, rightOwned⟩ :=
    verifyTransaction_eq_ok rightAccepted
  obtain ⟨leftFormat, leftDenomination, _⟩ := signedFields_eq_ok leftSigned
  obtain ⟨rightFormat, rightDenomination, _⟩ := signedFields_eq_ok rightSigned
  have leftFound : decodedFields suite left = .ok leftFields := by
    simp [decodedFields, leftDecoded, leftSigned]
  have rightFound : decodedFields suite right = .ok rightFields := by
    simp [decodedFields, rightDecoded, rightSigned]
  have leftFieldsDeep : leftFields.Deep := by rwa [SignedFields.Deep, leftFormat, leftDenomination]
  have rightFieldsDeep : rightFields.Deep := by
    rwa [SignedFields.Deep, rightFormat, rightDenomination]
  have digests : leftFields.digest suite = rightFields.digest suite := by
    simp only [transactionDigest, leftFound, rightFound, Checked.ok_bind, Checked.pure_eq_ok]
      at leftDigest rightDigest
    exact leftDigest.trans rightDigest.symm
  rw [SignedFields.digest_of_deep leftFieldsDeep, SignedFields.digest_of_deep rightFieldsDeep]
    at digests
  have hashes := free256.eq (by simp [digestMessages, leftFound])
    (by simp [digestMessages, rightFound]) digests
  have nested := deepHash_inj (by simpa [transactionMessages, leftFound, rightFound] using free384)
    (Subtype.ext hashes)
  exact ⟨leftFields, rightFields, leftFound, rightFound,
    sameSigned_of_nested leftFieldsDeep rightFieldsDeep leftKey rightKey leftOwned rightOwned
      nested⟩

/-- A transaction of format 2. -/
def sampleTransaction : Transaction where
  format := 2
  id := "LJ6kh8P-OjUVgD3rBlVZz3a-dxNfSzoBVJHmktDEFmI"
  lastTx := ""
  owner := "1AQSM69V9vublWgngCkLOeT0kx9gCitU6-Fbt0QL0GtL0Q"
  tags := [{ name := "YQ", value := "Yg" }]
  target := ""
  quantity := "5"
  dataSize := "3"
  dataRoot := zeroText 43
  reward := "1"
  signature := "n9sq7kEuTyKWo2dMUPtvxzj72bSSwqObuYgIUqi4YV-Unw"

/-- The same transaction with other spellings of its numbers. -/
def respelledTransaction : Transaction :=
  { sampleTransaction with
    quantity := "+005"
    dataSize := "03" }

theorem transaction_signature_binding_respelled :
    ∃ leftFields rightFields, decodedFields sha2Suite sampleTransaction = .ok leftFields ∧
      decodedFields sha2Suite respelledTransaction = .ok rightFields ∧
      SameSigned leftFields rightFields := by
  obtain ⟨_, leftAccepted⟩ := Checked.exists_of_isOk (verifyTransaction sha2Suite
    (fun _ _ _ => none) sampleTransaction sampleTransaction.id fork29Height) (by decide +kernel)
  obtain ⟨_, rightAccepted⟩ := Checked.exists_of_isOk (verifyTransaction sha2Suite
    (fun _ _ _ => none) respelledTransaction sampleTransaction.id fork29Height) (by decide +kernel)
  obtain ⟨fields, leftFound⟩ := Checked.exists_of_isOk
    (decodedFields sha2Suite sampleTransaction) (by decide)
  have rightFound : decodedFields sha2Suite respelledTransaction = .ok fields := leftFound
  have free : Collision.Free sha2Suite.digest384
      (transactionMessages sha2Suite sampleTransaction) := by decide +kernel
  refine transaction_signature_binding sha2Suite (fun _ _ _ => none) sampleTransaction
    respelledTransaction _ _ _ _ _ _ (fields.digest sha2Suite) leftAccepted rightAccepted
    (by decide) (by decide) ?_ ?_ ?_ ?_
  · simp only [digestMessages, leftFound, rightFound]
    exact (Collision.free_singleton _ _).append_self
  · simp only [transactionMessages, leftFound, rightFound] at free ⊢
    exact free.append_self
  · rw [transactionDigest, leftFound]
    rfl
  · rw [transactionDigest, rightFound]
    rfl

end ArIoGateway
