import ArIoGateway.Foundation.Framing
import ArIoGateway.Hashing

/-!
# Block headers after fork 2.6

The header fields, the helpers that append them to the signed segment, and the checks that tie a
header to an authenticated block-index entry.
-/

namespace ArIoGateway

open Framing Octets

def fork16Height : Nat := 95000
def fork20Height : Nat := 422250
def fork24Height : Nat := 633720
def fork25Height : Nat := 812970
def fork26Height : Nat := 1132210
def fork27Height : Nat := 1275480
def fork28Height : Nat := 1547120
def fork29Height : Nat := 1602350

/-- The proof of access of a block. -/
structure BlockPoa where
  option : String := ""
  txPath : String := ""
  dataPath : String := ""
  chunk : String := ""

/-- The verifiable-delay-function state of a block. -/
structure NonceLimiterInfo where
  output : String := ""
  globalStepNumber : Nat := 0
  seed : String := ""
  nextSeed : String := ""
  zoneUpperBound : Nat := 0
  nextZoneUpperBound : Nat := 0
  prevOutput : String := ""
  checkpoints : List String := []
  lastStepCheckpoints : List String := []
  vdfDifficulty : String := ""
  nextVdfDifficulty : String := ""

/-- A wallet in the full wallet list of a historical block.  Its balance is kept as the decimal text
of an integer. -/
structure LegacyWallet where
  address : String
  balance : Nat
  lastTx : String

/-- A block header as it is parsed, with its defaults. -/
structure BlockHeader where
  indepHash : String
  height : Nat
  previousBlock : String
  timestamp : Nat
  nonce : String
  lastRetarget : Nat
  diff : String
  cumulativeDiff : String
  rewardPool : String
  walletList : String
  legacyWallets : Option (List LegacyWallet) := none
  hashList : List String := []
  hashListMerkle : String
  hash : String
  blockSize : String
  weaveSize : String
  txRoot : String
  rewardAddr : String
  tags : List JsonValue
  txs : List String
  packing25Threshold : String
  strictDataSplitThreshold : String
  usdToArRate : String × String
  scheduledUsdToArRate : String × String
  poa : BlockPoa
  signature : String := ""
  reward : String := ""
  recallByte : String := ""
  recallByte2 : String := ""
  hashPreimage : String := ""
  rewardKey : String := ""
  partitionNumber : Nat := 0
  nonceLimiterInfo : NonceLimiterInfo := {}
  previousSolutionHash : String := ""
  pricePerGibMinute : String := ""
  scheduledPricePerGibMinute : String := ""
  rewardHistoryHash : String := ""
  blockTimeHistoryHash : String := ""
  debtSupply : String := ""
  kryderPlusRateMultiplier : String := ""
  kryderPlusRateMultiplierLatch : String := ""
  denomination : String := ""
  redenominationHeight : Nat := 0
  doubleSigningProof : JsonValue := .null
  previousCumulativeDiff : String := ""
  merkleRebaseSupportThreshold : String := ""
  poa2 : BlockPoa := {}
  chunkHash : String := ""
  chunk2Hash : String := ""
  packingDifficulty : UInt8 := 0
  unpackedChunkHash : String := ""
  unpackedChunk2Hash : String := ""
  replicaFormat : UInt8 := 0

/-- An entry of the authenticated block index. -/
structure BlockIndexEntry where
  txRoot : String
  weaveSize : String
  hash : String

/-- `1u128.checked_shl(bits)`, or the greatest `u128` where the shift leaves the type. -/
def sizeLimit (bytes : Nat) : Nat :=
  if bytes * 8 < 128 then 2 ^ (bytes * 8) else 2 ^ 128 - 1

/-- Append a length in a big-endian prefix of `bytes` bytes. -/
def appendSize (output : Bytes) (value bytes : Nat) : Checked Bytes := do
  Checked.ensure (0 < bytes ∧ bytes ≤ 16) "invalid size prefix width"
  Checked.ensure (value < sizeLimit bytes) "encoded size exceeds prefix width"
  pure (output ++ (bigEndian 16 value).drop (16 - bytes))

/-- Append bytes behind their length. -/
def appendBytes (output value : Bytes) (sizeBytes : Nat) : Checked Bytes := do
  Checked.ensure (value.length < sizeLimit sizeBytes) "value exceeds size prefix"
  let sized ← appendSize output value.length sizeBytes
  pure (sized ++ value)

/-- Append decoded base64url bytes behind their length. -/
def appendB64 (value : String) (sizeBytes : Nat) (label : String) : Append := fun output => do
  appendBytes output (← decodeB64 value label) sizeBytes

/-- Append an optional byte field; the empty text is the empty field. -/
def appendOptionalB64 (value : String) (sizeBytes : Nat) (label : String) : Append :=
  fun output =>
    if value = "" then appendBytes output [] sizeBytes else appendB64 value sizeBytes label output

/-- Append a decimal integer as shortest bytes behind their length. -/
def appendDecimal (value : String) (sizeBytes : Nat) (label : String) : Append := fun output => do
  let encoded := minimalBytes (← parseBiguint value label)
  let encoded := if encoded = [] then [0] else encoded
  appendBytes output encoded sizeBytes

/-- Append an optional integer; the empty text is the empty field, unlike zero. -/
def appendOptionalDecimal (value : String) (sizeBytes : Nat) (label : String) : Append :=
  fun output =>
    if value = "" then appendBytes output [] sizeBytes
    else appendDecimal value sizeBytes label output

/-- Append a machine integer behind its length. -/
def appendU64 (value sizeBytes : Nat) : Append :=
  appendDecimal (decimalString value) sizeBytes "integer"

/-- Append a decimal integer in exactly `bytes` bytes. -/
def appendFixedDecimal (value : String) (bytes : Nat) (label : String) : Append :=
  fun output => do
    let encoded := minimalBytes (← parseBiguint value label)
    Checked.ensure (encoded.length ≤ bytes) s!"{label} exceeds fixed width"
    pure (output ++ List.replicate (bytes - encoded.length) 0 ++ encoded)

/-- Append a machine integer in exactly `bytes` bytes. -/
def appendFixedU64 (value bytes : Nat) : Append :=
  appendFixedDecimal (decimalString value) bytes "integer"

/-- Append decoded base64url bytes of one exact length. -/
def appendFixedB64 (value : String) (bytes : Nat) (label : String) : Append := fun output => do
  let decoded ← decodeB64 value label
  Checked.ensure (decoded.length = bytes) s!"invalid {label} length"
  pure (output ++ decoded)

/-- Append a counted list of byte fields, last element first. -/
def appendB64List (values : List String) (listSizeBytes elementSizeBytes : Nat)
    (label : String) : Append := fun output => do
  let sized ← appendSize output values.length listSizeBytes
  run (values.reverse.map fun value => appendB64 value elementSizeBytes label) sized

/-- Append a counted list of hashes, first element first. -/
def appendHashes (values : List String) (label : String) : Append := fun output => do
  let sized ← appendSize output values.length 2
  run (values.map fun value => appendFixedB64 value 32 label) sized

/-- Append one block tag, which must be a JSON string. -/
def appendTag (tag : JsonValue) : Append := fun output => do
  let text ← Checked.context tag.asStr "invalid block tag"
  appendB64 text 2 "block tag" output

/-- Append the block tags, last tag first. -/
def appendTags (tags : List JsonValue) : Append := fun output => do
  let sized ← appendSize output tags.length 2
  run (tags.reverse.map appendTag) sized

/-- Append a single byte. -/
def appendByte (byte : UInt8) : Append := fun output => pure (output ++ [byte])

/-- A text field of the double-signing proof. -/
def doubleSigningField (proof : JsonValue) (name : String) : Checked String :=
  Checked.context ((proof.get name).bind JsonValue.asStr)
    s!"invalid double-signing proof field {name}"

/-- Length of a double-signing signature for the length of its key. -/
def doubleSigningSize (keyLength : Nat) (lengthPrefixed : Bool) : Checked Nat :=
  if keyLength = 512 then .ok 512
  else if keyLength = 33 ∧ lengthPrefixed then .ok 65
  else .error "invalid double-signing public key length"

/-- Append a key or signature, behind its length from fork 2.9 on. -/
def appendDoubleSigningBytes (value : Bytes) (lengthPrefixed : Bool) : Append := fun output =>
  if lengthPrefixed then appendBytes output value 2 else pure (output ++ value)

/-- Append one of the two signatures of the proof with its difficulties and preimage. -/
def appendDoubleSigningHalf (proof : JsonValue) (signatureSize : Nat) (lengthPrefixed : Bool)
    (signature difficulty previousDifficulty preimage : String) : Append := fun output => do
  let signature ← decodeB64 (← doubleSigningField proof signature) "double-signing signature"
  Checked.ensure (signature.length = signatureSize) "invalid double-signing signature length"
  let output ← appendDoubleSigningBytes signature lengthPrefixed output
  let output ← appendDecimal (← doubleSigningField proof difficulty) 2 difficulty output
  let output ←
    appendDecimal (← doubleSigningField proof previousDifficulty) 2 previousDifficulty output
  appendFixedB64 (← doubleSigningField proof preimage) 64 preimage output

/-- Append the double-signing proof, or one zero byte when there is none. -/
def appendDoubleSigningProof (proof : JsonValue) (height : Nat) : Append := fun output =>
  if proof.isNullOrEmpty then pure (output ++ [0])
  else do
    let key ← decodeB64 (← doubleSigningField proof "pub_key") "double-signing public key"
    let lengthPrefixed : Bool := fork29Height ≤ height
    let signatureSize ← doubleSigningSize key.length lengthPrefixed
    let output ← appendDoubleSigningBytes key lengthPrefixed (output ++ [1])
    let output ← appendDoubleSigningHalf proof signatureSize lengthPrefixed
      "sig1" "cdiff1" "prev_cdiff1" "preimage1" output
    appendDoubleSigningHalf proof signatureSize lengthPrefixed
      "sig2" "cdiff2" "prev_cdiff2" "preimage2" output

/-- The bytes of a reward address; `unclaimed` is empty from fork 2.6 on. -/
def rewardAddress (value : String) (post26 : Bool) : Checked Bytes :=
  if value = "unclaimed" then .ok (if post26 then [] else utf8 "unclaimed")
  else decodeB64 value "reward address"

/-- Append the reward address behind its length. -/
def appendRewardAddress (value : String) : Append := fun output => do
  appendBytes output (← rewardAddress value true) 1

/-- The nonce without leading zero bytes; a nonce of zeros keeps its last byte. -/
def stripNonce (nonce : Bytes) : Checked Bytes := do
  Checked.ensure (nonce ≠ []) "block nonce is empty"
  let start := (nonce.findIdx? (· ≠ 0)).getD (nonce.length - 1)
  pure (nonce.drop start)

/-- The stripped nonce of a header. -/
def headerNonce (block : BlockHeader) : Checked Bytes := do
  stripNonce (← decodeB64 block.nonce "block nonce")

/-- Fields up to the height, which decides the layout of the rest. -/
def heightFields (block : BlockHeader) (nonce : Bytes) : List Append :=
  [ appendB64 block.previousBlock 1 "previous block",
    appendU64 block.timestamp 1,
    fun output => appendBytes output nonce 2,
    appendU64 block.height 1 ]

/-- Fields that follow the height at every height. -/
def commonFields (block : BlockHeader) : List Append :=
  let nonceInfo := block.nonceLimiterInfo
  [ appendDecimal block.diff 2 "block difficulty",
    appendDecimal block.cumulativeDiff 2 "cumulative difficulty",
    appendU64 block.lastRetarget 1,
    appendB64 block.hash 1 "block hash",
    appendDecimal block.blockSize 2 "block size",
    appendDecimal block.weaveSize 2 "block weave size",
    appendRewardAddress block.rewardAddr,
    appendB64 block.txRoot 1 "block tx_root",
    appendB64 block.walletList 1 "wallet list",
    appendB64 block.hashListMerkle 1 "hash_list_merkle",
    appendDecimal block.rewardPool 1 "reward pool",
    appendDecimal block.packing25Threshold 1 "packing threshold",
    appendDecimal block.strictDataSplitThreshold 1 "strict data split threshold",
    appendDecimal block.usdToArRate.1 1 "USD rate dividend",
    appendDecimal block.usdToArRate.2 1 "USD rate divisor",
    appendDecimal block.scheduledUsdToArRate.1 1 "scheduled USD rate dividend",
    appendDecimal block.scheduledUsdToArRate.2 1 "scheduled USD rate divisor",
    appendTags block.tags,
    appendB64List block.txs 2 1 "block transaction ID",
    appendDecimal block.reward 1 "block reward",
    appendDecimal block.recallByte 2 "recall byte",
    appendB64 block.hashPreimage 1 "hash preimage",
    appendOptionalDecimal block.recallByte2 2 "second recall byte",
    appendB64 block.rewardKey 2 "reward key",
    appendU64 block.partitionNumber 1,
    appendFixedB64 nonceInfo.output 32 "VDF output",
    appendFixedU64 nonceInfo.globalStepNumber 8,
    appendFixedB64 nonceInfo.seed 48 "VDF seed",
    appendFixedB64 nonceInfo.nextSeed 48 "next VDF seed",
    appendFixedU64 nonceInfo.zoneUpperBound 32,
    appendFixedU64 nonceInfo.nextZoneUpperBound 32,
    appendB64 nonceInfo.prevOutput 1 "previous VDF output",
    appendHashes nonceInfo.checkpoints "VDF checkpoint",
    appendHashes nonceInfo.lastStepCheckpoints "last VDF checkpoint",
    appendB64 block.previousSolutionHash 1 "previous solution hash",
    appendDecimal block.pricePerGibMinute 1 "price per GiB minute",
    appendDecimal block.scheduledPricePerGibMinute 1 "scheduled price per GiB minute",
    appendFixedB64 block.rewardHistoryHash 32 "reward history hash",
    appendDecimal block.debtSupply 1 "debt supply",
    appendFixedDecimal block.kryderPlusRateMultiplier 3 "Kryder+ rate multiplier",
    appendFixedDecimal block.kryderPlusRateMultiplierLatch 1 "Kryder+ rate multiplier latch",
    appendFixedDecimal block.denomination 3 "denomination",
    appendU64 block.redenominationHeight 1,
    appendDoubleSigningProof block.doubleSigningProof block.height,
    appendDecimal block.previousCumulativeDiff 2 "previous cumulative difficulty" ]

/-- Fields that fork 2.7 adds. -/
def fork27Fields (block : BlockHeader) : List Append :=
  [ appendDecimal block.merkleRebaseSupportThreshold 2 "Merkle rebase threshold",
    appendB64 block.poa.dataPath 3 "block data_path",
    appendB64 block.poa.txPath 3 "block tx_path",
    appendB64 block.poa2.dataPath 3 "second block data_path",
    appendB64 block.poa2.txPath 3 "second block tx_path",
    appendFixedB64 block.chunkHash 32 "chunk hash",
    appendOptionalB64 block.chunk2Hash 1 "second chunk hash",
    appendFixedB64 block.blockTimeHistoryHash 32 "block time history hash",
    appendDecimal block.nonceLimiterInfo.vdfDifficulty 1 "VDF difficulty",
    appendDecimal block.nonceLimiterInfo.nextVdfDifficulty 1 "next VDF difficulty" ]

/-- Fields that fork 2.8 adds. -/
def fork28Fields (block : BlockHeader) : List Append :=
  [ appendByte block.packingDifficulty,
    appendOptionalB64 block.unpackedChunkHash 1 "unpacked chunk hash",
    appendOptionalB64 block.unpackedChunk2Hash 1 "second unpacked chunk hash" ]

/-- Fields that fork 2.9 adds. -/
def fork29Fields (block : BlockHeader) : List Append :=
  [ appendByte block.replicaFormat ]

/-- All fields of the signed segment in their order. -/
def segmentFields (block : BlockHeader) (nonce : Bytes) : List Append :=
  heightFields block nonce ++ commonFields block ++
    (if fork27Height ≤ block.height then fork27Fields block else []) ++
    (if fork28Height ≤ block.height then fork28Fields block else []) ++
    (if fork29Height ≤ block.height then fork29Fields block else [])

/-- The concatenated segments that are signed. -/
def signedSegment (block : BlockHeader) : Checked Bytes := do
  run (segmentFields block (← headerNonce block)) []

/-- `post_2_6_signed_hash`. -/
def post26SignedHash (suite : HashSuite) (block : BlockHeader) : Checked (FixedBytes 32) := do
  pure (suite.sha256 [← signedSegment block])

/-- The identifier of a header.  The identifiers of earlier forks are deep hashes, computed by
the function given here. -/
def blockIndepHash (suite : HashSuite) (earlier : BlockHeader → Checked (FixedBytes 48))
    (block : BlockHeader) : Checked (FixedBytes 48) :=
  if fork26Height ≤ block.height then do
    let signedHash ← post26SignedHash suite block
    let signature ← decodeB64 block.signature "block signature"
    pure (suite.sha384 [signedHash.val, signature])
  else earlier block

/-- Check a header against an authenticated index entry at a height. -/
def verifyBlockHeader (suite : HashSuite) (earlier : BlockHeader → Checked (FixedBytes 48))
    (block : BlockHeader) (entry : BlockIndexEntry) (height : Nat)
    (transactionId : Option String) : Checked Unit := do
  Checked.ensure (block.height = height) "block header height mismatch"
  let expectedHash ← decodeFixed 48 entry.hash "trusted block hash"
  let claimed ← decodeFixed 48 block.indepHash "block indep_hash"
  Checked.ensure (claimed = expectedHash) "block header identifier mismatch"
  let actual ← blockIndepHash suite earlier block
  Checked.ensure (actual = expectedHash) "block indep_hash verification failed"
  if 422250 ≤ height then do
    let txRoot ← decodeB64 block.txRoot "block tx_root"
    let trusted ← decodeB64 entry.txRoot "trusted block tx_root"
    Checked.ensure ((txRoot.length = 0 ∨ txRoot.length = 32) ∧ txRoot = trusted)
      "block tx_root does not match trusted index"
  let weave ← parseU128 block.weaveSize "block weave size"
  let trustedWeave ← parseU128 entry.weaveSize "trusted block weave size"
  Checked.ensure (weave = trustedWeave) "block weave size does not match trusted index"
  match transactionId with
  | some id =>
      Checked.ensure (id ∈ block.txs) "transaction ID is absent from authenticated block"
  | none => pure ()

/-- Base64url text of zero bytes. -/
def zeroText (symbols : Nat) : String := String.ofList (List.replicate symbols 'A')

/-- A header of fork 2.9. -/
def sampleHeader : BlockHeader where
  indepHash := "DjKZGYjd9X-7yWEclHPiVtOLfc32-1tqFILUdLWzjz_xAaCS5Fy4YVJr8UQM2H3A"
  height := fork29Height
  previousBlock := zeroText 64
  timestamp := 1750000000
  nonce := "Aw"
  lastRetarget := 1749999000
  diff := "7"
  cumulativeDiff := "90"
  rewardPool := "0"
  walletList := zeroText 64
  hashListMerkle := zeroText 64
  hash := zeroText 43
  blockSize := "262144"
  weaveSize := "524288"
  txRoot := zeroText 43
  rewardAddr := "unclaimed"
  tags := []
  txs := [zeroText 43]
  packing25Threshold := "0"
  strictDataSplitThreshold := "30607159107830"
  usdToArRate := ("1", "6")
  scheduledUsdToArRate := ("1", "6")
  poa := {}
  reward := "12"
  recallByte := "0"
  nonceLimiterInfo :=
    { output := zeroText 43
      seed := zeroText 64
      nextSeed := zeroText 64
      checkpoints := [zeroText 43]
      vdfDifficulty := "1"
      nextVdfDifficulty := "1" }
  pricePerGibMinute := "5"
  scheduledPricePerGibMinute := "5"
  rewardHistoryHash := zeroText 43
  blockTimeHistoryHash := zeroText 43
  debtSupply := "0"
  kryderPlusRateMultiplier := "1"
  kryderPlusRateMultiplierLatch := "0"
  denomination := "1"
  previousCumulativeDiff := "83"
  merkleRebaseSupportThreshold := "151066495197430"
  chunkHash := zeroText 43
  packingDifficulty := 2
  replicaFormat := 1

end ArIoGateway
