import ArIoGateway.DeepHash
import ArIoGateway.Objects
import ArIoGateway.Signatures

/-!
# Binary data items

The header of a binary data item, the tags in it and the check of its identifier and signature.
-/

namespace ArIoGateway

open NestedHash Octets

def maxDataItemTags : Nat := 128
def maxDataItemTagNameBytes : Nat := 1024
def maxDataItemTagValueBytes : Nat := 3072
def maxDataItemTagBytes : Nat :=
  maxDataItemTags * (maxDataItemTagNameBytes + maxDataItemTagValueBytes + 40) + 10
def maxDataItemFixedHeaderBytes : Nat := 2 + 2052 + 1025 + 2 * 33 + 16
def maxDataItemHeaderBytes : Nat := maxDataItemFixedHeaderBytes + maxDataItemTagBytes

/-- A view of content; content is modelled by its bytes. -/
def sliceContent (content : Bytes) (start finish : Nat) : Checked Bytes := do
  Checked.ensure (start ≤ finish ∧ finish ≤ content.length) "content slice is out of bounds"
  pure ((content.take finish).drop start)

/-- Read bytes of content. -/
def readAt (content : Bytes) (offset length : Nat) : Checked Bytes := do
  Checked.ensure (offset + length < 2 ^ 64) "content read offset overflow"
  sliceContent content offset (offset + length)

/-- Take bytes at a cursor and move the cursor behind them. -/
def take (bytes : Bytes) (cursor length : Nat) (label : String) : Checked (Bytes × Nat) := do
  Checked.ensure (cursor + length < 2 ^ 64) s!"{label} offset overflow"
  Checked.ensure (cursor + length ≤ bytes.length) s!"{label} is truncated"
  pure ((bytes.drop cursor).take length, cursor + length)

/-- Read a little-endian integer of a number of bytes. -/
def readLe (width : Nat) (bytes : Bytes) (cursor : Nat) (label : String) :
    Checked (Nat × Nat) := do
  let (value, cursor) ← take bytes cursor width label
  pure (ofBigEndian value.reverse, cursor)

/-- Read a field of 32 bytes behind a flag that tells whether it is there. -/
def readOptional32 (bytes : Bytes) (cursor : Nat) (label : String) : Checked (Bytes × Nat) := do
  let (flag, cursor) ← take bytes cursor 1 label
  match flag with
  | [0] => pure ([], cursor)
  | [1] => take bytes cursor 32 label
  | _ => .error s!"{label} flag is invalid"

/-- The seven-bit groups of an Avro integer from a group on; at most `left` are left. -/
def readAvroGroups (bytes : Bytes) : (left index cursor encoded : Nat) → Checked (Int × Nat)
  | 0, _, _, _ => .error "Avro long is malformed"
  | left + 1, index, cursor, encoded => do
      let (group, cursor) ← take bytes cursor 1 "Avro long"
      let byte := (group.headD 0).toNat
      Checked.ensure (index ≠ 9 ∨ byte ≤ 1) "Avro long overflows i64"
      let encoded := encoded + byte % 128 * 2 ^ (index * 7)
      if byte < 128 then
        pure (if encoded % 2 = 0 then (encoded / 2 : Nat) else -((encoded / 2 : Nat) : Int) - 1,
          cursor)
      else readAvroGroups bytes left (index + 1) cursor encoded

/-- `read_avro_long`. -/
def readAvroLong (bytes : Bytes) (cursor : Nat) : Checked (Int × Nat) :=
  readAvroGroups bytes 10 0 cursor 0

/-- `read_avro_length`. -/
def readAvroLength (bytes : Bytes) (cursor : Nat) (label : String) : Checked (Nat × Nat) := do
  let (length, cursor) ← readAvroLong bytes cursor
  Checked.ensure (0 ≤ length) s!"{label} length is negative"
  pure (length.toNat, cursor)

/-- Read the tags of one Avro block. -/
def readAvroTags (bytes : Bytes) : Nat → Nat → Checked (List (Bytes × Bytes) × Nat)
  | 0, cursor => pure ([], cursor)
  | count + 1, cursor => do
      let (nameLength, cursor) ← readAvroLength bytes cursor "Avro tag name"
      Checked.ensure (nameLength ≤ maxDataItemTagNameBytes) "data item tag name exceeds limit"
      let (name, cursor) ← take bytes cursor nameLength "Avro tag name"
      let (valueLength, cursor) ← readAvroLength bytes cursor "Avro tag value"
      Checked.ensure (valueLength ≤ maxDataItemTagValueBytes) "data item tag value exceeds limit"
      let (value, cursor) ← take bytes cursor valueLength "Avro tag value"
      let (tags, cursor) ← readAvroTags bytes count cursor
      pure ((name, value) :: tags, cursor)

/-- Read Avro blocks until the block of zero tags or the end.  Every block takes at least one
byte, so that `rounds` blocks are enough for as many bytes. -/
def readAvroBlocks (bytes : Bytes) (expectedCount : Nat) :
    (rounds cursor : Nat) → List (Bytes × Bytes) → Checked (List (Bytes × Bytes) × Nat)
  | 0, _, _ => .error "Avro blocks do not end"
  | rounds + 1, cursor, tags =>
      if cursor = bytes.length then pure (tags, cursor)
      else do
        let (blockCount, cursor) ← readAvroLong bytes cursor
        if blockCount = 0 then pure (tags, cursor)
        else do
          Checked.ensure (blockCount ≠ -2 ^ 63) "Avro tag block count overflow"
          let count := blockCount.natAbs
          Checked.ensure (min (tags.length + count) (2 ^ 64 - 1) ≤ expectedCount)
            "Avro tag count exceeds declared count"
          let (blockEnd, cursor) ← readBlockEnd blockCount cursor
          let (block, cursor) ← readAvroTags bytes count cursor
          Checked.ensure (∀ finish ∈ blockEnd, cursor = finish) "Avro tag block size mismatch"
          readAvroBlocks bytes expectedCount rounds cursor (tags ++ block)
where
  /-- The end of a block that states its size; such blocks have a negative count. -/
  readBlockEnd (blockCount : Int) (cursor : Nat) : Checked (Option Nat × Nat) :=
    if blockCount < 0 then do
      let (blockSize, cursor) ← readAvroLong bytes cursor
      Checked.ensure (0 ≤ blockSize) "Avro tag block size is negative"
      Checked.ensure (cursor + blockSize.toNat < 2 ^ 64) "Avro tag block size overflow"
      pure (some (cursor + blockSize.toNat), cursor)
    else pure (none, cursor)

/-- `parse_avro_tags`. -/
def parseAvroTags (bytes : Bytes) (expectedCount : Nat) : Checked (List (Bytes × Bytes)) :=
  if expectedCount = 0 ∧ (bytes = [] ∨ bytes = [0, 0]) then pure []
  else do
    let (tags, cursor) ← readAvroBlocks bytes expectedCount (bytes.length + 1) 0 []
    Checked.ensure (cursor = bytes.length) "Avro tag bytes contain trailing data"
    Checked.ensure (tags.length = expectedCount) "Avro tag count does not match declared count"
    pure tags

/-- Lengths of the signature and the owner of a signature type. -/
def dataItemSignatureSizes (signatureType : Nat) : Checked (Nat × Nat) :=
  match signatureType with
  | 1 => .ok (512, 512)
  | 2 => .ok (64, 32)
  | 3 => .ok (65, 65)
  | 4 => .ok (64, 32)
  | 5 => .ok (64, 32)
  | 6 => .ok (2052, 1025)
  | 7 => .ok (65, 42)
  | other => .error s!"unsupported ANS-104 signature type {other}"

/-- The header fields of a binary data item, parsed but not yet verified. -/
structure DataItemHeader where
  legacy : Bool
  unsigned : Bool
  signatureType : Nat
  signature : Bytes
  owner : Bytes
  target : Bytes
  anchor : Bytes
  rawTags : Bytes
  tags : List (Bytes × Bytes)
  dataOffset : Nat
deriving DecidableEq

/-- The address that the index stores for the owner; unsigned items have none. -/
def DataItemHeader.ownerAddress (suite : HashSuite) (header : DataItemHeader) :
    Option (FixedBytes 32) :=
  if header.unsigned then none else some (suite.sha256 [header.owner])

/-- Early items have no signature type; the hash of their signature selects the layout. -/
def isLegacy (suite : HashSuite) (header : Bytes) (expectedId : FixedBytes 32) : Bool :=
  decide (512 ≤ header.length) && decide (suite.sha256 [header.take 512] = expectedId)

/-- The signature type in front of the signature. -/
def readSignatureType (legacy : Bool) (header : Bytes) : Checked (Nat × Nat) :=
  if legacy then pure (1, 0) else readLe 2 header 0 "data item signature type"

/-- The bytes of the tags, which may lie behind the part of the item that is read first. -/
def readRawTags (item header : Bytes) (cursor tagBytes : Nat) : Checked Bytes :=
  if cursor + tagBytes ≤ header.length then pure ((header.drop cursor).take tagBytes)
  else (readAt item cursor tagBytes).mapError fun _ => "data item tags are truncated"

/-- `read_data_item_header`. -/
def readDataItemHeader (suite : HashSuite) (item : Bytes) (expectedId : FixedBytes 32) :
    Checked DataItemHeader := do
  let header ← readAt item 0 (min item.length maxDataItemFixedHeaderBytes)
  let legacy := isLegacy suite header expectedId
  let (signatureType, cursor) ← readSignatureType legacy header
  let (signatureSize, ownerSize) ← dataItemSignatureSizes signatureType
  let (signature, cursor) ← take header cursor signatureSize "data item signature"
  let (owner, cursor) ← take header cursor ownerSize "data item owner"
  let unsigned := !legacy && decide (signatureType = 1) && signature.all (· = 0) &&
    owner.all (· = 0)
  let (target, cursor) ← readOptional32 header cursor "data item target"
  let (anchor, cursor) ← readOptional32 header cursor "data item anchor"
  let (tagCount, cursor) ← readLe 8 header cursor "data item tag count"
  Checked.ensure (tagCount ≤ maxDataItemTags) "data item tag count exceeds limit"
  let (tagBytes, cursor) ← readLe 8 header cursor "data item tag byte length"
  Checked.ensure (tagBytes ≤ maxDataItemTagBytes) "data item tag bytes exceed limit"
  Checked.ensure (cursor + tagBytes < 2 ^ 64) "data item tag offset overflow"
  let rawTags ← readRawTags item header cursor tagBytes
  let tags ← parseAvroTags rawTags tagCount
  pure
    { legacy, unsigned, signatureType, signature, owner, target, anchor, rawTags, tags
      dataOffset := cursor + tagBytes }

theorem take_eq_ok {bytes taken : Bytes} {cursor length next : Nat} {label : String}
    (done : take bytes cursor length label = .ok (taken, next)) :
    taken.length = length ∧ next = cursor + length := by
  simp only [take, Checked.bind_eq_ok, Checked.ensure_eq_ok, Checked.pure_eq_ok,
    Prod.mk.injEq] at done
  obtain ⟨_, _, _, inside, rfl, rfl⟩ := done
  rw [List.length_take, List.length_drop]
  omega

theorem readLe_eq_ok {width value cursor next : Nat} {bytes : Bytes} {label : String}
    (done : readLe width bytes cursor label = .ok (value, next)) : next = cursor + width := by
  simp only [readLe, Checked.bind_eq_ok, Checked.pure_eq_ok, Prod.mk.injEq] at done
  obtain ⟨⟨taken, _⟩, read, _, rfl⟩ := done
  exact (take_eq_ok read).2

theorem readOptional32_eq_ok {bytes field : Bytes} {cursor next : Nat} {label : String}
    (done : readOptional32 bytes cursor label = .ok (field, next)) :
    next = cursor + 1 + field.length := by
  simp only [readOptional32, Checked.bind_eq_ok] at done
  obtain ⟨⟨flag, behind⟩, read, done⟩ := done
  obtain ⟨_, rfl⟩ := take_eq_ok read
  split at done
  · simp only [Checked.pure_eq_ok, Prod.mk.injEq] at done
    obtain ⟨rfl, rfl⟩ := done
    rfl
  · obtain ⟨length, rfl⟩ := take_eq_ok done
    rw [length]
  · cases done

theorem length_of_readRawTags {item header rawTags : Bytes} {cursor tagBytes : Nat}
    (done : readRawTags item header cursor tagBytes = .ok rawTags) :
    rawTags.length = tagBytes := by
  unfold readRawTags at done
  split at done
  · simp only [Checked.pure_eq_ok] at done
    subst done
    rw [List.length_take, List.length_drop]
    omega
  · simp only [Checked.mapError_eq_ok, readAt, sliceContent, Checked.bind_eq_ok,
      Checked.ensure_eq_ok, Checked.pure_eq_ok] at done
    obtain ⟨_, _, _, inside, rfl⟩ := done
    rw [List.length_drop, List.length_take]
    omega

/-- The layout of a header that is read: the lengths of its fields make up where data starts. -/
structure DataItemHeader.Laid (header : DataItemHeader) : Prop where
  sizes : dataItemSignatureSizes header.signatureType =
    .ok (header.signature.length, header.owner.length)
  dataOffset : header.dataOffset = (if header.legacy then 0 else 2) + header.signature.length +
    header.owner.length + 1 + header.target.length + 1 + header.anchor.length + 16 +
    header.rawTags.length

theorem readSignatureType_eq_ok {legacy : Bool} {header : Bytes} {signatureType next : Nat}
    (done : readSignatureType legacy header = .ok (signatureType, next)) :
    next = if legacy then 0 else 2 := by
  unfold readSignatureType at done
  split at done
  · simp only [Checked.pure_eq_ok, Prod.mk.injEq] at done
    simp [*]
  · simp [readLe_eq_ok done, *]

theorem laid_of_readDataItemHeader {suite : HashSuite} {item : Bytes} {id : FixedBytes 32}
    {header : DataItemHeader} (read : readDataItemHeader suite item id = .ok header) :
    header.Laid := by
  simp only [readDataItemHeader, Checked.bind_eq_ok, Checked.ensure_eq_ok,
    Checked.pure_eq_ok] at read
  obtain ⟨_, _, ⟨signatureType, _⟩, typeRead, ⟨signatureSize, ownerSize⟩, sizes, ⟨signature, _⟩,
    signatureRead, ⟨owner, _⟩, ownerRead, ⟨target, _⟩, targetRead, ⟨anchor, _⟩, anchorRead,
    ⟨_, _⟩, countRead, _, _, ⟨_, _⟩, bytesRead, _, _, _, _, rawTags, tagsRead, _, _, rfl⟩ := read
  obtain ⟨signatureLength, rfl⟩ := take_eq_ok signatureRead
  obtain ⟨ownerLength, rfl⟩ := take_eq_ok ownerRead
  obtain rfl := readSignatureType_eq_ok typeRead
  obtain rfl := readOptional32_eq_ok targetRead
  obtain rfl := readOptional32_eq_ok anchorRead
  obtain rfl := readLe_eq_ok countRead
  obtain rfl := readLe_eq_ok bytesRead
  have tagsLength := length_of_readRawTags tagsRead
  refine ⟨?_, ?_⟩
  · simpa only [signatureLength, ownerLength] using sizes
  · simp only [signatureLength, ownerLength, tagsLength]

/-- Every signature type has signatures and owners that are not empty. -/
theorem DataItemHeader.Laid.sizes_ge {header : DataItemHeader} (laid : header.Laid) :
    64 ≤ header.signature.length ∧ 32 ≤ header.owner.length := by
  have sizes := laid.sizes
  unfold dataItemSignatureSizes at sizes
  split at sizes <;> first
    | (obtain ⟨signature, owner⟩ := Prod.mk.inj (Except.ok.inj sizes); omega)
    | cases sizes

/-- The deep hash of data, from its plain digest. -/
def dataHash (suite : HashSuite) (data : Bytes) : FixedBytes 48 :=
  suite.sha384 [(suite.sha384 [deepTag "blob" data.length]).val, (suite.sha384 [data]).val]

/-- `data_item_signature_payload`. -/
def dataItemSignaturePayload (suite : HashSuite) (signatureType : Nat)
    (owner target anchor rawTags : Bytes) (dataHash : FixedBytes 48) : FixedBytes 48 :=
  deepHashList suite
    [ deepHashBlob suite (utf8 "dataitem"),
      deepHashBlob suite (utf8 "1"),
      deepHashBlob suite (utf8 (decimalString signatureType)),
      deepHashBlob suite owner,
      deepHashBlob suite target,
      deepHashBlob suite anchor,
      deepHashBlob suite rawTags,
      dataHash ]

/-- The payload that is signed; early items do not sign their type. -/
def DataItemHeader.payload (suite : HashSuite) (header : DataItemHeader)
    (dataHash : FixedBytes 48) : FixedBytes 48 :=
  if header.legacy then
    deepHashList suite
      [ deepHashBlob suite (utf8 "dataitem"),
        deepHashBlob suite (utf8 "1"),
        deepHashBlob suite header.owner,
        deepHashBlob suite header.target,
        deepHashBlob suite header.anchor,
        deepHashBlob suite header.rawTags,
        dataHash ]
  else
    dataItemSignaturePayload suite header.signatureType header.owner header.target header.anchor
      header.rawTags dataHash

/-- A data item whose identifier and signature are checked. -/
structure VerifiedItem where
  data : Bytes
  dataOffset : Nat
  itemSize : Nat
  bodyHash : FixedBytes 32
  signatureType : Nat
  signature : Bytes
  owner : Bytes
  target : Bytes
  anchor : Bytes
  tags : List (Bytes × Bytes)
deriving DecidableEq

/-- Whether an identifier commits to the content of an item and not to its signature. -/
def DataItemHeader.contentIdentity (suite : HashSuite) (header : DataItemHeader)
    (expectedId : FixedBytes 32) : Bool :=
  header.unsigned || (!header.legacy && decide (suite.sha256 [header.signature] ≠ expectedId))

/-- The payload that a content identifier is the digest of. -/
def DataItemHeader.identityPayload (suite : HashSuite) (header : DataItemHeader)
    (dataHash : FixedBytes 48) : FixedBytes 48 :=
  if header.unsigned then header.payload suite dataHash
  else
    dataItemSignaturePayload suite header.signatureType (List.replicate 512 0) header.target
      header.anchor header.rawTags dataHash

/-- The signature and the owner that a verified item keeps; unsigned items keep neither. -/
def checkSignature (crypto : CryptoSuite) (header : DataItemHeader) (payload : FixedBytes 48) :
    Checked (Bytes × Bytes) :=
  if header.unsigned then pure ([], [])
  else do
    verifyDataItemSignature crypto header.signatureType header.owner header.signature payload.val
    pure (header.signature, header.owner)

/-- `verify_data_item_header`. -/
def verifyDataItemHeader (crypto : CryptoSuite) (item : Bytes) (header : DataItemHeader)
    (expectedId : FixedBytes 32) : Checked VerifiedItem := do
  let data ← sliceContent item header.dataOffset item.length
  let dataHash := dataHash crypto.toHashSuite data
  let payload := header.payload crypto.toHashSuite dataHash
  Checked.ensure (header.contentIdentity crypto.toHashSuite expectedId = true →
      crypto.sha256 [(header.identityPayload crypto.toHashSuite dataHash).val] = expectedId)
    "data item content ID does not match its content"
  let (signature, owner) ← checkSignature crypto header payload
  pure
    { data
      dataOffset := header.dataOffset
      itemSize := item.length
      bodyHash := crypto.sha256 [data]
      signatureType := header.signatureType
      signature, owner
      target := header.target
      anchor := header.anchor
      tags := header.tags }

/-- `verify_data_item`. -/
def verifyDataItem (crypto : CryptoSuite) (item : Bytes) (expectedId : FixedBytes 32) :
    Checked VerifiedItem := do
  let header ← readDataItemHeader crypto.toHashSuite item expectedId
  verifyDataItemHeader crypto item header expectedId

namespace VerifiedItem

/-- The identifier of an item: the digest of its signature, or the listed one when unsigned. -/
def id (suite : HashSuite) (item : VerifiedItem) (headerId : FixedBytes 32) : FixedBytes 32 :=
  if item.signature = [] then headerId else suite.sha256 [item.signature]

/-- The metadata that the index stores. -/
def metadata (suite : HashSuite) (item : VerifiedItem) (id : FixedBytes 32) : ObjectMetadata where
  id := id.val
  kind := 1
  signature := item.signature
  anchor := item.anchor
  ownerAddress := if item.owner = [] then [] else (suite.sha256 [item.owner]).val
  ownerPublicKey := item.owner
  target := item.target
  dataSize := item.data.length
  contentType := optionalTextTag item.tags (utf8 "Content-Type")
  contentEncoding := optionalTextTag item.tags (utf8 "Content-Encoding")
  signatureType := item.signatureType
  format := none
  quantity := none
  reward := none
  denomination := none
  dataRoot := none
  tags := item.tags

end VerifiedItem

end ArIoGateway
