import ArIoGateway.DataItems

/-!
# JSON bundles

The entries that the gateway reads from a JSON bundle while it streams through the document, and
the check of one entry.  The JSON reader itself is a library: `JsonDocument` is what it delivers,
with the number of bytes that it has read at each point.
-/

namespace ArIoGateway

open NestedHash Octets

/-- A field of an object: its key, the text of its value, and the bytes read behind the key, in
front of the value and behind it. -/
structure JsonField where
  key : String
  raw : String
  keyEnd : Nat
  valueStart : Nat
  valueEnd : Nat

/-- An element of the items.  `start` is where its reading begins. -/
inductive JsonElement where
  /-- An object whose brace stands at `offset`. -/
  | object (start offset : Nat) (fields : List JsonField) (finish : Nat)
  /-- Any other value; the part up to `boundEnd` is read under the size limit. -/
  | other (start boundEnd finish : Nat)

/-- A member of the document: as the list of items, and as a value that is skipped. -/
structure JsonMember where
  key : String
  keyEnd : Nat
  elements : List JsonElement
  elementsEnd : Checked Nat
  skippedEnd : Checked Nat

/-- A document as it is streamed, up to its end or to the first error. -/
structure JsonDocument where
  start : Nat
  members : List JsonMember
  finish : Checked Nat
  trailing : Checked Unit

/-- The JSON library. -/
structure JsonReader where
  /-- Stream through a document. -/
  document : Bytes → JsonDocument
  /-- The string that a value is. -/
  asString : String → Option String
  /-- The tags that a value is, as pairs of name and value. -/
  asTags : String → Option (List (String × String))

def maxJsonKeyBytes : Nat := 256
def jsonEscapeFactor : Nat := 6

/-- `quoted_base64_cap`. -/
def quotedBase64Cap (bytes : Nat) : Nat :=
  ((bytes + 2) / 3 * 4 + 2) * jsonEscapeFactor + maxJsonKeyBytes

/-- The greatest length of a field that is kept. -/
def fieldCap (key : String) : Nat :=
  if key = "id" ∨ key = "target" then quotedBase64Cap 32
  else if key = "owner" then quotedBase64Cap 1025
  else if key = "signature" then quotedBase64Cap 2052
  else if key = "nonce" then 4096 * jsonEscapeFactor + maxJsonKeyBytes
  else maxDataItemTags * 8192 * jsonEscapeFactor + maxJsonKeyBytes

/-- What is kept of the fields of an entry.  The newest value of a key comes first. -/
structure Fields where
  offset : Nat := 0
  values : List (String × String) := []
  data : Option (Nat × Nat) := none
  invalid : Bool := false

/-- The newest value of a field. -/
def Fields.get (fields : Fields) (key : String) : Option String :=
  (fields.values.find? fun value => value.1 = key).map Prod.snd

/-- An entry of a JSON bundle. -/
structure JsonEntry where
  offset : Nat
  size : Nat
  id : Option (FixedBytes 32)
  source : Bytes
  fields : Fields

/-- Reading stops when it passes a limit. -/
def withinLimit (finish start cap : Nat) : Checked Unit :=
  Checked.ensure (finish ≤ start + cap) "JSON bundle field exceeds size limit"

/-- One field of an entry; the second component is where the limit of the next key starts. -/
def visitField (state : Fields × Nat) (field : JsonField) : Checked (Fields × Nat) := do
  let (fields, bound) := state
  withinLimit field.keyEnd bound maxJsonKeyBytes
  if field.key = "data" then
    pure ({ fields with
      invalid := fields.invalid || fields.data.isSome
      data := some (field.valueStart, field.valueEnd) }, field.valueEnd)
  else if field.key ∈ ["id", "owner", "target", "nonce", "tags", "signature"] then do
    withinLimit field.valueEnd field.keyEnd (fieldCap field.key)
    pure ({ fields with
      invalid := fields.invalid || (fields.get field.key).isSome
      values := (field.key, field.raw) :: fields.values }, field.valueEnd)
  else pure (fields, field.valueEnd)

/-- The fields of an element and the end of the element. -/
def visitElement (element : JsonElement) : Checked (Fields × Nat) :=
  match element with
  | .object start offset fields finish => do
      withinLimit (offset + 1) start maxJsonKeyBytes
      let (kept, bound) ← fields.foldlM visitField ({ offset := offset }, offset + 1)
      withinLimit finish bound maxJsonKeyBytes
      pure (kept, finish)
  | .other start boundEnd finish => do
      withinLimit boundEnd start maxJsonKeyBytes
      pure ({ invalid := true }, finish)

/-- The entry of an element. -/
def jsonEntry (reader : JsonReader) (source : Bytes) (element : JsonElement) :
    Checked JsonEntry := do
  let (fields, finish) ← visitElement element
  let id := do
    let text ← reader.asString (← fields.get "id")
    (decodeFixed 32 text "JSON item ID").toOption
  pure { offset := fields.offset, size := finish - fields.offset, id, source, fields }

/-- The entries of elements, up to the first error. -/
def jsonEntries (reader : JsonReader) (source : Bytes) :
    List JsonElement → List JsonEntry × Checked Unit
  | [] => ([], pure ())
  | element :: elements =>
      match jsonEntry reader source element with
      | .error message => ([], .error message)
      | .ok entry =>
          let (entries, ended) := jsonEntries reader source elements
          (entry :: entries, ended)

/-- The entries of the members of a document, and how the document ends. -/
def visitMembers (reader : JsonReader) (source : Bytes) (document : JsonDocument) (found : Bool)
    (bound : Nat) : List JsonMember → List JsonEntry × Checked Unit
  | [] => ([], do
      withinLimit (← document.finish) bound maxJsonKeyBytes
      Checked.ensure (found = true) "missing field items"
      document.trailing)
  | member :: members =>
      if member.key = "items" then
        let (entries, ended) := jsonEntries reader source member.elements
        let checked : Checked Nat := do
          withinLimit member.keyEnd bound maxJsonKeyBytes
          Checked.ensure (found = false) "duplicate field items"
          pure 0
        match checked, ended, member.elementsEnd with
        | .error message, _, _ => ([], .error message)
        | .ok _, .error message, _ => (entries, .error message)
        | .ok _, .ok _, .error message => (entries, .error message)
        | .ok _, .ok _, .ok finish =>
            let (others, ended) := visitMembers reader source document true finish members
            (entries ++ others, ended)
      else
        match withinLimit member.keyEnd bound maxJsonKeyBytes, member.skippedEnd with
        | .error message, _ => ([], .error message)
        | .ok _, .error message => ([], .error message)
        | .ok _, .ok finish => visitMembers reader source document found finish members

/-- The entries that are read from a JSON bundle before it ends or fails. -/
def readJsonBundle (reader : JsonReader) (content : Bytes) : List JsonEntry × Checked Unit :=
  let document := reader.document content
  visitMembers reader content document false document.start document.members

/-- Why encoded data cannot be read: it is invalid, or it stops early. -/
inductive ScanError where
  | invalid
  | unexpectedEnd
deriving DecidableEq

/-- The byte behind a backslash and the text behind it. -/
def unescape : Bytes → Except ScanError (UInt8 × Bytes)
  | [] => .error .unexpectedEnd
  | escaped :: rest =>
      if escaped = 117 then
        match rest with
        | first :: second :: third :: fourth :: rest =>
            match [first, second, third, fourth].mapM decodeHexNibble with
            | some digits =>
                let value := digits.foldl (fun value digit => value * 16 + digit) 0
                if value < 256 then .ok (UInt8.ofNat value, rest) else .error .invalid
            | none => .error .invalid
        | _ => .error .unexpectedEnd
      else if escaped = 34 ∨ escaped = 92 ∨ escaped = 47 then .ok (escaped, rest)
      else if escaped = 98 then .ok (8, rest)
      else if escaped = 102 then .ok (12, rest)
      else if escaped = 110 then .ok (10, rest)
      else if escaped = 114 then .ok (13, rest)
      else if escaped = 116 then .ok (9, rest)
      else .error .invalid

def decodeBlock : Nat := 64 * 1024

/-- Up to `limit` symbols of encoded data, and the text behind them. -/
def nextSymbols : (limit : Nat) → Bytes → Except ScanError (Bytes × Bytes)
  | 0, text => .ok ([], text)
  | _, [] => .ok ([], [])
  | limit + 1, symbol :: text => do
      let (symbol, text) ← if symbol = 92 then unescape text else .ok (symbol, text)
      let (symbols, text) ← nextSymbols limit text
      pure (symbol :: symbols, text)

/-- Decode data block by block; every block takes at least one byte of the text. -/
def scanBlocks : (rounds : Nat) → Bytes → Except ScanError Bytes
  | 0, _ => .ok []
  | rounds + 1, text => do
      let (symbols, text) ← nextSymbols decodeBlock text
      if symbols = [] then .ok []
      else
        match base64Decode symbols with
        | none => .error .invalid
        | some bytes => return bytes ++ (← scanBlocks rounds text)

/-- The data that is encoded in the body of a JSON string. -/
def scanBase64 (encoded : Bytes) : Except ScanError Bytes :=
  scanBlocks (encoded.length + 1) encoded

/-- The parts of an entry besides its data. -/
structure JsonItem where
  owner : Bytes
  signature : Bytes
  target : Bytes
  anchor : Bytes
  tags : List (Bytes × Bytes)

/-- The text of a field that must be there. -/
def jsonText (reader : JsonReader) (fields : Fields) (name : String) : Checked String := do
  let raw ← Checked.context (fields.get name) s!"missing JSON item {name}"
  Checked.context (reader.asString raw) "invalid type: expected a string"

/-- The nonce, which may be missing. -/
def jsonAnchor (reader : JsonReader) (fields : Fields) : Checked Bytes :=
  match fields.get "nonce" with
  | some raw => do
      let text ← Checked.context (reader.asString raw) "invalid type: expected a string"
      decodeB64 text "JSON nonce"
  | none => pure []

/-- One tag of an entry. -/
def jsonTag (tag : String × String) : Checked (Bytes × Bytes) := do
  let name ← decodeB64 tag.1 "JSON tag name"
  let value ← decodeB64 tag.2 "JSON tag value"
  Checked.ensure (name ≠ [] ∧ name.length ≤ 1024 ∧ value ≠ [] ∧ value.length ≤ 3072)
    "invalid JSON tag size"
  pure (name, value)

/-- Decode the parts of an entry and check its identifier. -/
def parseJsonItem (suite : HashSuite) (reader : JsonReader) (fields : Fields)
    (id : FixedBytes 32) : Checked JsonItem := do
  let owner ← decodeB64 (← jsonText reader fields "owner") "JSON owner"
  let signature ← decodeB64 (← jsonText reader fields "signature") "JSON signature"
  let target ← decodeB64 (← jsonText reader fields "target") "JSON target"
  let anchor ← jsonAnchor reader fields
  Checked.ensure (owner ≠ [] ∧ owner.length ≤ 1025 ∧ signature ≠ [] ∧ signature.length ≤ 2052)
    "invalid JSON RSA key or signature size"
  Checked.ensure (suite.sha256 [signature] = id) "JSON item signature hash differs from ID"
  let raw ← Checked.context (fields.get "tags") "missing JSON tags"
  let encoded ← Checked.context (reader.asTags raw) "invalid JSON tags"
  Checked.ensure (encoded.length ≤ maxDataItemTags) "too many JSON item tags"
  let tags ← encoded.mapM jsonTag
  pure { owner, signature, target, anchor, tags }

/-- The payload that a JSON item signs. -/
def JsonItem.payload (suite : HashSuite) (item : JsonItem) (dataHash : FixedBytes 48) :
    FixedBytes 48 :=
  let tagHashes := item.tags.map fun tag =>
    deepHashList suite [deepHashBlob suite tag.1, deepHashBlob suite tag.2]
  deepHashList suite
    [ deepHashBlob suite (utf8 "dataitem"),
      deepHashBlob suite (utf8 "1"),
      deepHashBlob suite item.owner,
      deepHashBlob suite item.target,
      deepHashBlob suite item.anchor,
      deepHashList suite tagHashes,
      dataHash ]

/-- `is_ascii_whitespace`. -/
def isAsciiWhitespace (byte : UInt8) : Bool :=
  byte = 32 ∨ byte = 9 ∨ byte = 10 ∨ byte = 12 ∨ byte = 13

/-- Where the body of the data string starts, when the value is a string. -/
def dataBody (source : Bytes) (span : Nat × Nat) : Checked (Option (Nat × Bytes)) :=
  if span.2 ≤ span.1 then pure none
  else do
    let text ← sliceContent source span.1 span.2
    let start := span.1 + (text.takeWhile isAsciiWhitespace).length
    if span.2 ≤ start ∨ source.getD start 0 ≠ 34 ∨ source.getD (span.2 - 1) 0 ≠ 34 then pure none
    else do
      let body ← sliceContent source (start + 1) (span.2 - 1)
      pure (some (start + 1, body))

/-- The checked item of an entry whose parts and data are decoded. -/
def verifyJsonItem (crypto : CryptoSuite) (entry : JsonEntry) (item : JsonItem)
    (dataOffset : Nat) (data : Bytes) : Option VerifiedItem :=
  let payload := item.payload crypto.toHashSuite (dataHash crypto.toHashSuite data)
  match verifyRsaPss crypto item.owner item.signature payload.val "JSON item" with
  | .error _ => none
  | .ok _ => some
      { data, dataOffset
        itemSize := entry.size
        bodyHash := crypto.sha256 [data]
        signatureType := 1
        signature := item.signature
        owner := item.owner
        target := item.target
        anchor := item.anchor
        tags := item.tags }

/-- `JsonEntry::verify`.  An entry that is not a valid item is nothing, not an error. -/
def JsonEntry.verify (crypto : CryptoSuite) (reader : JsonReader) (entry : JsonEntry) :
    Checked (Option VerifiedItem) :=
  match entry.fields.invalid, entry.id, entry.fields.data with
  | false, some id, some span =>
      match parseJsonItem crypto.toHashSuite reader entry.fields id with
      | .error _ => pure none
      | .ok item => do
          match ← dataBody entry.source span with
          | none => pure none
          | some (start, body) =>
              match scanBase64 body with
              | .error .invalid => pure none
              | .error .unexpectedEnd => .error "failed to fill whole buffer"
              | .ok data => pure (verifyJsonItem crypto entry item (start - entry.offset) data)
  | _, _, _ => pure none

/-- Where a verified item of a JSON bundle comes from. -/
structure JsonEntry.Verified (entry : JsonEntry) (item : VerifiedItem) : Prop where
  valid : entry.fields.invalid = false
  listed : entry.id.isSome = true
  itemSize : item.itemSize = entry.size
  body : ∃ span start body, entry.fields.data = some span ∧
    dataBody entry.source span = .ok (some (start, body)) ∧ scanBase64 body = .ok item.data ∧
    item.dataOffset = start - entry.offset

theorem JsonEntry.verified_of_verify {crypto : CryptoSuite} {reader : JsonReader}
    {entry : JsonEntry} {item : VerifiedItem}
    (verified : entry.verify crypto reader = .ok (some item)) : entry.Verified item := by
  unfold JsonEntry.verify at verified
  split at verified
  · next id span valid listed found =>
      split at verified
      · simp at verified
      · simp only [Checked.bind_eq_ok] at verified
        obtain ⟨_ | ⟨start, body⟩, located, verified⟩ := verified
        · simp at verified
        · cases scanned : scanBase64 body with
          | error problem => cases problem <;> simp [scanned] at verified
          | ok data =>
              simp only [scanned, Checked.pure_eq_ok, verifyJsonItem] at verified
              split at verified
              · cases verified
              · obtain rfl := Option.some.inj verified
                exact ⟨valid, by simp [listed], rfl, span, start, body, found, located, scanned, rfl⟩
  · simp at verified

end ArIoGateway
