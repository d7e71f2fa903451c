import ArIoGateway.BlockHeader
import ArIoGateway.DeepHash
import ArIoGateway.Foundation.JsonText
import Mathlib.Data.List.Sort

/-!
# Block headers before fork 2.6

The identifiers of these headers are deep hashes of their fields, and before fork 1.6 the digest of
a JSON document.  The height decides the layout.
-/

namespace ArIoGateway

open NestedHash Octets

section Fields

variable (suite : HashSuite)

/-- `deep_hash_decimal`: leading zeros do not count. -/
def deepHashDecimal (value label : String) : Checked (FixedBytes 48) := do
  pure (deepHashBlob suite (decimal (← parseBiguint value label)))

/-- The deep hash of decoded base64url bytes. -/
def deepHashB64 (value label : String) : Checked (FixedBytes 48) := do
  pure (deepHashBlob suite (← decodeB64 value label))

/-- `deep_hash_b64_list`. -/
def deepHashB64List (values : List String) (label : String) : Checked (FixedBytes 48) := do
  pure (deepHashList suite (← values.mapM fun value => deepHashB64 suite value label))

/-- The deep hash of a list of fields. -/
def deepHashFields (fields : List (Checked (FixedBytes 48))) : Checked (FixedBytes 48) := do
  pure (deepHashList suite (← fields.mapM id))

/-- The deep hash of a machine integer. -/
def deepHashNumber (value : Nat) : Checked (FixedBytes 48) :=
  pure (deepHashBlob suite (utf8 (decimalString value)))

/-- The deep hash of a reward address; `unclaimed` stands for its own letters. -/
def deepHashReward (value : String) : Checked (FixedBytes 48) := do
  pure (deepHashBlob suite (← rewardAddress value false))

/-- The deep hash of a block tag. -/
def deepHashTag (tag : JsonValue) : Checked (FixedBytes 48) := do
  deepHashB64 suite (← Checked.context tag.asStr "invalid block tag") "block tag"

/-- The deep hash of the proof of access. -/
def deepHashPoa (poa : BlockPoa) : Checked (FixedBytes 48) :=
  deepHashFields suite
    [ deepHashDecimal suite poa.option "proof option",
      deepHashB64 suite poa.txPath "block tx_path",
      deepHashB64 suite poa.dataPath "block data_path",
      deepHashB64 suite poa.chunk "block chunk" ]

/-- `pre_2_6_indep_hash`. -/
def pre26IndepHash (block : BlockHeader) : Checked (FixedBytes 48) := do
  let core ←
    [ deepHashDecimal suite (decimalString block.height) "block height",
      deepHashB64 suite block.previousBlock "previous block",
      deepHashB64 suite block.txRoot "block tx_root",
      deepHashB64List suite block.txs "block transaction ID",
      deepHashDecimal suite block.blockSize "block size",
      deepHashDecimal suite block.weaveSize "block weave size",
      deepHashReward suite block.rewardAddr,
      deepHashFields suite (block.tags.map (deepHashTag suite)) ].mapM id
  let base ←
    [ deepHashDecimal suite block.usdToArRate.1 "USD rate dividend",
      deepHashDecimal suite block.usdToArRate.2 "USD rate divisor",
      deepHashDecimal suite block.scheduledUsdToArRate.1 "scheduled USD rate dividend",
      deepHashDecimal suite block.scheduledUsdToArRate.2 "scheduled USD rate divisor",
      deepHashDecimal suite block.packing25Threshold "packing threshold",
      deepHashDecimal suite block.strictDataSplitThreshold "strict data split threshold" ].mapM id
  let baseHash := deepHashList suite (base ++ core)
  let dataSegment ← deepHashFields suite
    [ pure (deepHashBlob suite baseHash.val),
      deepHashDecimal suite (decimalString block.timestamp) "block timestamp",
      deepHashDecimal suite (decimalString block.lastRetarget) "last retarget",
      deepHashDecimal suite block.diff "block difficulty",
      deepHashDecimal suite block.cumulativeDiff "cumulative difficulty",
      deepHashDecimal suite block.rewardPool "reward pool",
      deepHashB64 suite block.walletList "wallet list",
      deepHashB64 suite block.hashListMerkle "hash_list_merkle" ]
  let poa ← deepHashPoa suite block.poa
  deepHashFields suite
    [ pure (deepHashBlob suite dataSegment.val),
      deepHashB64 suite block.hash "block hash",
      deepHashB64 suite block.nonce "block nonce",
      pure poa ]

/-- `modern_indep_hash`: before fork 2.4 the proof is part of the base. -/
def modernIndepHash (block : BlockHeader) (transactionHash : FixedBytes 48) :
    Checked (FixedBytes 48) := do
  let poa ← deepHashPoa suite block.poa
  let base ←
    [ deepHashNumber suite block.height,
      deepHashB64 suite block.previousBlock "previous block",
      deepHashB64 suite block.txRoot "block tx_root",
      pure transactionHash,
      deepHashDecimal suite block.blockSize "block size",
      deepHashDecimal suite block.weaveSize "block weave size",
      deepHashReward suite block.rewardAddr,
      pure (deepHashList suite []),
      pure poa ].mapM id
  let baseHash := deepHashList suite (if block.height < fork24Height then base else base.take 8)
  let data ← deepHashFields suite
    [ pure (deepHashBlob suite baseHash.val),
      deepHashNumber suite block.timestamp,
      deepHashNumber suite block.lastRetarget,
      deepHashDecimal suite block.diff "block difficulty",
      deepHashDecimal suite block.cumulativeDiff "cumulative difficulty",
      deepHashDecimal suite block.rewardPool "reward pool",
      deepHashB64 suite block.walletList "wallet-list root",
      deepHashB64 suite block.hashListMerkle "hash_list_merkle" ]
  let independent ←
    [ pure (deepHashBlob suite data.val),
      deepHashB64 suite block.hash "block hash",
      deepHashB64 suite block.nonce "block nonce",
      pure poa ].mapM id
  pure (deepHashList suite
    (if block.height < fork24Height then independent.take 3 else independent))

/-- `required_wallets`. -/
def requiredWallets (block : BlockHeader) : Checked (List LegacyWallet) :=
  Checked.context block.legacyWallets "missing full ordered historical wallet list"

/-- The deep hash of a wallet. -/
def deepHashWallet (wallet : LegacyWallet) : Checked (FixedBytes 48) :=
  deepHashFields suite
    [ deepHashB64 suite wallet.address "wallet address",
      deepHashNumber suite wallet.balance,
      deepHashB64 suite wallet.lastTx "wallet last_tx" ]

/-- The identifier between forks 1.6 and 2.0.  Tags are not part of it. -/
def walletIndepHash (block : BlockHeader) : Checked (FixedBytes 48) := do
  let wallets ← requiredWallets block
  let walletHashes ← wallets.mapM (deepHashWallet suite)
  deepHashFields suite
    [ deepHashB64 suite block.nonce "block nonce",
      deepHashB64 suite block.previousBlock "previous block",
      deepHashNumber suite block.timestamp,
      deepHashNumber suite block.lastRetarget,
      deepHashDecimal suite block.diff "block difficulty",
      deepHashDecimal suite block.cumulativeDiff "cumulative difficulty",
      deepHashNumber suite block.height,
      deepHashB64 suite block.hash "block hash",
      deepHashB64 suite block.hashListMerkle "hash_list_merkle",
      deepHashB64List suite block.txs "block transaction ID",
      pure (deepHashList suite walletHashes),
      deepHashReward suite block.rewardAddr,
      pure (deepHashList suite []),
      deepHashDecimal suite block.rewardPool "reward pool",
      deepHashDecimal suite block.weaveSize "block weave size",
      deepHashDecimal suite block.blockSize "block size" ]

end Fields

/-- A floating-point number as its shortest decimal digits: an absolute value that may have a point,
scaled by a power of ten. -/
inductive ShortestFloat where
  | nonFinite
  | zero
  | finite (negative : Bool) (mantissa : { text : Bytes // text.all JsonText.isNumberByte = true })
      (exponent : Int)

/-- The decimal text of an integer with its sign. -/
def signedDecimal (value : Int) : Bytes :=
  (if value < 0 then 45 else 43) :: decimal value.natAbs

/-- `write_f64` in the format of the historical node. -/
def writeF64 : ShortestFloat → Checked Bytes
  | .nonFinite => .error "non-finite historical JSON number"
  | .zero => pure (utf8 "0.0")
  | .finite negative mantissa exponent => do
      let point : Int := (mantissa.val.findIdx? (· = 46)).getD mantissa.val.length + exponent
      let digits := mantissa.val.filter (· ≠ 46)
      let start := (digits.takeWhile (· = 48)).length
      let digits := ((digits.drop start).reverse.dropWhile (· = 48)).reverse
      Checked.ensure (digits ≠ []) "called `Option::unwrap()` on a `None` value"
      let point := point - start
      let exponent := point - 1
      let sign := if negative then [45] else []
      pure (sign ++
        if ¬(-6 ≤ exponent ∧ exponent < 21) then
          digits.take 1 ++ (if 1 < digits.length then 46 :: digits.drop 1 else []) ++
            101 :: signedDecimal exponent
        else if point ≤ 0 then utf8 "0." ++ List.replicate (-point).toNat 48 ++ digits
        else if digits.length ≤ point.toNat then
          digits ++ List.replicate (point.toNat - digits.length) 48 ++ utf8 ".0"
        else digits.take point.toNat ++ 46 :: digits.drop point.toNat)

section Text

variable (parseFloat : Bytes → Checked ShortestFloat)

/-- `strip_prefix` of a minus sign. -/
def stripMinus : Bytes → Bytes
  | 45 :: digits => digits
  | digits => digits

/-- `write_number_str`: integers keep their digits, other numbers are read as floating-point ones. -/
def writeNumberStr (value : Bytes) : Checked Bytes := do
  let digits := stripMinus value
  if digits ≠ [] ∧ digits.all isAsciiDigit = true then
    pure (if value = utf8 "-0" then utf8 "0" else value)
  else writeF64 (← parseFloat value)

/-- The written number as the spelling of a JSON number. -/
def writtenNumber (text : String) : Checked JsonText.Json := do
  let bytes ← writeNumberStr parseFloat (utf8 text)
  if spelled : bytes ≠ [] ∧ bytes.all JsonText.isNumberByte = true then
    pure (.number ⟨bytes, spelled⟩)
  else .error "not the spelling of a number"

mutual

/-- A JSON value with its numbers as they are written. -/
def written : JsonValue → Checked JsonText.Json
  | .null => pure .null
  | .bool value => pure (.bool value)
  | .number text => writtenNumber parseFloat text
  | .string text => pure (.string (utf8 text))
  | .array items => do pure (.array (← writtenItems items))
  | .object fields => do pure (.object (← writtenFields fields))

/-- The items of an array. -/
def writtenItems : List JsonValue → Checked (List JsonText.Json)
  | [] => pure []
  | item :: items => do pure ((← written item) :: (← writtenItems items))

/-- The fields of an object. -/
def writtenFields : List (String × JsonValue) → Checked (List (Bytes × JsonText.Json))
  | [] => pure []
  | (key, value) :: fields => do
      pure ((utf8 key, ← written value) :: (← writtenFields fields))

end

/-- A string field. -/
def textField (name value : String) : Bytes × JsonText.Json := (utf8 name, .string (utf8 value))

/-- A machine integer. -/
def integerJson (value : Nat) : Checked JsonText.Json :=
  writtenNumber parseFloat (decimalString value)

/-- `decimal_number`, as it is written. -/
def decimalNumber (value label : String) : Checked JsonText.Json := do
  integerJson parseFloat (← parseBiguint value label)

/-- A wallet of the document. -/
def walletJson (wallet : LegacyWallet) : Checked JsonText.Json := do
  pure (.object
    [ textField "wallet" wallet.address,
      (utf8 "quantity", ← integerJson parseFloat wallet.balance),
      textField "last_tx" wallet.lastTx ])

/-- The checks that come before the document. -/
def checkCanonical (block : BlockHeader) (wallets : List LegacyWallet) : Checked Unit := do
  Checked.ensure (block.hashList.length = block.height)
    "missing or incomplete historical hash_list: expected every predecessor through H0"
  if block.height = 0 then
    Checked.ensure (block.previousBlock = "") "genesis has a predecessor"
  else
    Checked.ensure (block.hashList.head? = some block.previousBlock)
      "historical hash_list must start with the previous block and end with H0"
  let _ ← block.hashList.mapM fun hash => decodeFixed 48 hash "historical predecessor hash"
  let _ ← block.txs.mapM fun id => decodeFixed 32 id "block transaction ID"
  let _ ← wallets.mapM fun wallet => do
    let _ ← decodeB64 wallet.address "wallet address"
    decodeB64 wallet.lastTx "wallet last_tx"
  let _ ← decodeB64 block.nonce "block nonce"
  let _ ← decodeB64 block.hash "block hash"
  let _ ← rewardAddress block.rewardAddr false
  pure ()

/-- The document whose digest is the identifier. -/
def canonicalBlock (block : BlockHeader) : Checked JsonText.Json := do
  let wallets ← requiredWallets block
  checkCanonical block wallets
  let diff ← decimalNumber parseFloat block.diff "block difficulty"
  let rewardPool ← decimalNumber parseFloat block.rewardPool "reward pool"
  let weaveSize ← decimalNumber parseFloat block.weaveSize "block weave size"
  let blockSize ← decimalNumber parseFloat block.blockSize "block size"
  pure (.object
    [ textField "nonce" block.nonce,
      textField "previous_block" block.previousBlock,
      (utf8 "timestamp", ← integerJson parseFloat block.timestamp),
      (utf8 "last_retarget", ← integerJson parseFloat block.lastRetarget),
      (utf8 "diff", diff),
      (utf8 "height", ← integerJson parseFloat block.height),
      textField "hash" block.hash,
      textField "indep_hash" "",
      (utf8 "txs", .array (block.txs.map fun id => .string (utf8 id))),
      (utf8 "hash_list", .array (block.hashList.map fun hash => .string (utf8 hash))),
      (utf8 "wallet_list", .array (← wallets.mapM (walletJson parseFloat))),
      textField "reward_addr" block.rewardAddr,
      (utf8 "tags", .array (← writtenItems parseFloat block.tags)),
      (utf8 "reward_pool", rewardPool),
      (utf8 "weave_size", weaveSize),
      (utf8 "block_size", blockSize) ])

/-- `canonical_preimage`. -/
def canonicalPreimage (block : BlockHeader) : Checked Bytes :=
  JsonText.print .upper <$> canonicalBlock parseFloat block

variable (suite : HashSuite)

/-- `historical::indep_hash`. -/
def historicalIndepHash (block : BlockHeader) : Checked (FixedBytes 48) := do
  Checked.ensure (block.height < fork25Height) "not a pre-2.5 block"
  if block.height < fork16Height then do
    pure (suite.sha384 [← canonicalPreimage parseFloat block])
  else if block.height < fork20Height then walletIndepHash suite block
  else do
    modernIndepHash suite block (← deepHashB64List suite block.txs "block transaction ID")

end Text

/-- `legacy_hash_index`. -/
def legacyHashIndex (height : Nat) : Checked Nat := do
  Checked.ensure (height ≤ fork20Height - 1) "not a pre-2.0 block"
  pure (fork20Height - 1 - height)

/-- The decoded transaction identifiers of a header in ascending order. -/
def sortedTransactions (block : BlockHeader) : Checked (List (FixedBytes 32)) := do
  let ids ← block.txs.mapM fun id => decodeFixed 32 id "block transaction ID"
  pure (ids.insertionSort fun left right => left.val ≤ right.val)

/-- `verify_legacy_header_hash`: the header with the transaction root of the index, when it has the
expected deep hash. -/
def verifyLegacyHeaderHash (suite : HashSuite) (block : BlockHeader) (entry : BlockIndexEntry)
    (expectedH2 : FixedBytes 48) : Checked BlockHeader := do
  let _ ← legacyHashIndex block.height
  let claimed ← decodeFixed 48 block.indepHash "block indep_hash"
  let trusted ← decodeFixed 48 entry.hash "trusted block hash"
  Checked.ensure (claimed = trusted) "block header identifier mismatch"
  let weave ← parseU128 block.weaveSize "block weave size"
  let trustedWeave ← parseU128 entry.weaveSize "trusted block weave size"
  Checked.ensure (weave = trustedWeave) "block weave size does not match trusted index"
  let txRoot ← decodeB64 entry.txRoot "trusted block tx_root"
  Checked.ensure (txRoot.length = 0 ∨ txRoot.length = 32) "invalid trusted block tx_root length"
  let block := { block with txRoot := entry.txRoot }
  let transactions ← sortedTransactions block
  let transactionHashes := transactions.map fun id => deepHashBlob suite id.val
  let hash ← modernIndepHash suite block (deepHashList suite transactionHashes)
  Checked.ensure (hash = expectedH2) "historical block H2 verification failed"
  pure block

end ArIoGateway
