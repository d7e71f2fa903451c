import ArIoGateway.Foundation.Cursor
import ArIoGateway.JsonBundles

/-!
# Bundles

The two bundle formats, the entries of a bundle in order, and the lookup of an item in a bundle
and along an indexed path of nested bundles.
-/

namespace ArIoGateway

open Octets

def bundleEntrySize : Nat := 64
def maxBundleDepth : Nat := 32
def maxJsonBytes : Nat := 1024 * 1024

/-- The formats of bundles. -/
inductive BundleFormat where
  | binary
  | json
deriving DecidableEq

/-- What the tags of a bundle say of its format and its version. -/
structure FormatFlags where
  binary : Bool := false
  json : Bool := false
  v1 : Bool := false
  v2 : Bool := false

/-- Note one tag. -/
def FormatFlags.add (flags : FormatFlags) (tag : Bytes × Bytes) : FormatFlags :=
  if eqIgnoreAsciiCase tag.1 (utf8 "Bundle-Format") then
    { flags with
      binary := flags.binary || decide (tag.2 = utf8 "binary")
      json := flags.json || decide (tag.2 = utf8 "json") }
  else if eqIgnoreAsciiCase tag.1 (utf8 "Bundle-Version") then
    { flags with
      v1 := flags.v1 || decide (tag.2 = utf8 "1.0.0")
      v2 := flags.v2 || decide (tag.2 = utf8 "2.0.0") }
  else flags

/-- The format that tags announce. -/
def BundleFormat.fromPairs (tags : List (Bytes × Bytes)) : Checked BundleFormat :=
  let flags := tags.foldl FormatFlags.add {}
  match flags.binary && flags.v2, flags.json && flags.v1 with
  | true, false => .ok .binary
  | false, true => .ok .json
  | _, _ => .error "unsupported or ambiguous bundle format/version"

/-- The format of a verified item that is itself a bundle. -/
def VerifiedItem.bundleFormat (item : VerifiedItem) : Option BundleFormat :=
  (BundleFormat.fromPairs item.tags).toOption

/-- An entry of a bundle: a row of the table with the bytes of its item, or an element of the
items. -/
inductive BundleEntry where
  | binary (id : FixedBytes 32) (bytes : Bytes) (offset : Nat)
  | json (entry : JsonEntry)

namespace BundleEntry

/-- The identifier that the bundle lists for an entry. -/
def id : BundleEntry → Option (FixedBytes 32)
  | .binary id _ _ => some id
  | .json entry => entry.id

def offset : BundleEntry → Nat
  | .binary _ _ offset => offset
  | .json entry => entry.offset

def isJson : BundleEntry → Bool
  | .binary _ _ _ => false
  | .json _ => true

/-- Whether the digest of the signature of an item is an identifier. -/
def matchesSignatureId (suite : HashSuite) (expectedId : FixedBytes 32) :
    BundleEntry → Checked Bool
  | .json _ => pure false
  | .binary _ bytes _ =>
      if bytes.length < 2 then pure false
      else do
        let head ← readAt bytes 0 (min bytes.length 514)
        match dataItemSignatureSizes (ofBigEndian (head.take 2).reverse) with
        | .error _ => pure false
        | .ok (signatureSize, _) =>
            if bytes.length < 2 + signatureSize then pure false
            else do
              let signature ← readSignature bytes head signatureSize
              pure (decide (suite.sha256 [signature] = expectedId))
where
  /-- The signature, which may lie behind the part that is read first. -/
  readSignature (bytes head : Bytes) (signatureSize : Nat) : Checked Bytes :=
    if 2 + signatureSize ≤ head.length then pure ((head.drop 2).take signatureSize)
    else readAt bytes 2 signatureSize

/-- `saturating_add` of addressable sizes. -/
def saturatingAdd (left right : Nat) : Nat := min (left + right) (2 ^ 64 - 1)

/-- `saturating_mul` of addressable sizes. -/
def saturatingMul (left right : Nat) : Nat := min (left * right) (2 ^ 64 - 1)

/-- Check the item of an entry.  A gateway that serves the item gives its size limit. -/
def verify (crypto : CryptoSuite) (reader : JsonReader) (materialize : Option Nat) :
    BundleEntry → Checked (Option VerifiedItem)
  | .binary id bytes _ => do
      Checked.ensure
        (∀ limit ∈ materialize, bytes.length ≤ saturatingAdd limit maxDataItemHeaderBytes)
        "data item exceeds configured data size limit"
      some <$> verifyDataItem crypto bytes id
  | .json entry => do
      Checked.ensure
        (∀ limit ∈ materialize, entry.size ≤ saturatingAdd (saturatingMul limit 8) maxJsonBytes)
        "JSON item exceeds configured data size limit"
      match ← entry.verify crypto reader with
      | none => pure none
      | some item => do
          Checked.ensure (∀ limit ∈ materialize, item.data.length ≤ limit)
            "transaction exceeds configured data size limit"
          pure (some item)

end BundleEntry

/-- A little-endian number of 32 bytes that fits 64 bits. -/
def readU256Usize (bytes : Bytes) (label : String) : Checked Nat := do
  Checked.ensure (bytes.length = 32) s!"{label} has the wrong width"
  Checked.ensure ((bytes.drop 8).all (· = 0) = true) s!"{label} exceeds u64"
  pure (ofBigEndian (bytes.take 8).reverse)

/-- A cursor over the table of a binary bundle and the items behind it. -/
structure BinaryBundleItems where
  bundle : Bytes
  remaining : Nat
  cursor : Nat
  itemStart : Nat
  table : Bytes

namespace BinaryBundleItems

/-- Read the number of items and check that the table fits. -/
def new (bundle : Bytes) : Checked BinaryBundleItems := do
  let header ← (readAt bundle 0 32).mapError fun _ => "Could not read bundle header"
  let count ← readU256Usize header "bundle item count"
  let cursor := 32
  Checked.ensure (count ≤ (bundle.length - cursor) / bundleEntrySize)
    "bundle item table exceeds parent bounds"
  let itemStart := cursor + count * bundleEntrySize
  Checked.ensure (count ≠ 0 ∨ itemStart = bundle.length) "empty bundle contains trailing data"
  pure { bundle, remaining := count, cursor, itemStart, table := [] }

/-- The rows of the table that are read ahead. -/
def readTable (items : BinaryBundleItems) : Checked Bytes :=
  if items.table = [] then
    readAt items.bundle items.cursor (min items.remaining 256 * bundleEntrySize)
  else pure items.table

/-- The next entry. -/
def next (items : BinaryBundleItems) : Checked (Option (BundleEntry × BinaryBundleItems)) :=
  if items.remaining = 0 then pure none
  else do
    let table ← items.readTable
    let header := table.take bundleEntrySize
    let size ← readU256Usize (header.take 32) "bundle item size"
    Checked.ensure (0 < size) "bundle contains an empty item"
    let id ← (toFixed 32 (header.drop 32)).mapError fun _ => "invalid bundle item ID length"
    let finish := items.itemStart + size
    Checked.ensure (finish < 2 ^ 64) "bundle item offset overflow"
    Checked.ensure (finish ≤ items.bundle.length) "bundle item exceeds parent bounds"
    let remaining := items.remaining - 1
    Checked.ensure (remaining = 0 → finish = items.bundle.length)
      "bundle item sizes do not consume the parent"
    let bytes ← sliceContent items.bundle items.itemStart finish
    pure (some (.binary id bytes items.itemStart,
      { items with
        remaining
        cursor := items.cursor + bundleEntrySize
        itemStart := finish
        table := table.drop bundleEntrySize }))

/-- What the next entry of a binary bundle is: the bytes from where the items left off. -/
structure Advances (items : BinaryBundleItems) (entry : BundleEntry)
    (rest : BinaryBundleItems) : Prop where
  bundle : rest.bundle = items.bundle
  remaining : items.remaining = rest.remaining + 1
  forward : items.itemStart < rest.itemStart
  inside : rest.itemStart ≤ items.bundle.length
  last : rest.remaining = 0 → rest.itemStart = items.bundle.length
  entry : ∃ id bytes, entry = .binary id bytes items.itemStart ∧
    sliceContent items.bundle items.itemStart rest.itemStart = .ok bytes

theorem advances_of_next {items rest : BinaryBundleItems} {entry : BundleEntry}
    (found : items.next = .ok (some (entry, rest))) : Advances items entry rest := by
  unfold next at found
  split at found
  · simp at found
  · next some =>
      simp only [Checked.bind_eq_ok, Checked.ensure_eq_ok, Checked.pure_eq_ok, Option.some.injEq,
        Prod.mk.injEq] at found
      obtain ⟨_, _, size, _, _, positive, id, _, _, _, _, inside, _, last, bytes, sliced, rfl,
        rfl⟩ := found
      exact
        { bundle := rfl
          remaining := by simp only; omega
          forward := Nat.lt_add_of_pos_right positive
          inside, last
          entry := ⟨id, bytes, rfl, sliced⟩ }

end BinaryBundleItems

/-- A cursor over the entries of a bundle. -/
inductive BundleItems where
  | binary (items : BinaryBundleItems)
  | json (entries : List JsonEntry) (ended : Checked Unit)

namespace BundleItems

/-- Open a bundle. -/
def new (reader : JsonReader) (bundle : Bytes) : BundleFormat → Checked BundleItems
  | .binary => .binary <$> BinaryBundleItems.new bundle
  | .json =>
      let (entries, ended) := readJsonBundle reader bundle
      pure (.json entries ended)

/-- The next entry. -/
def next : BundleItems → Checked (Option (BundleEntry × BundleItems))
  | .binary items => do
      match ← items.next with
      | none => pure none
      | some (entry, items) => pure (some (entry, .binary items))
  | .json [] ended => do
      ended
      pure none
  | .json (entry :: entries) ended => pure (some (.json entry, .json entries ended))

/-- More than the number of entries that are left. -/
def rounds : BundleItems → Nat
  | .binary items => items.remaining + 1
  | .json entries _ => entries.length + 1

/-- Run a body for every entry. -/
def forEach {β : Type} (body : β → BundleEntry → Checked β) (value : β) (items : BundleItems) :
    Checked β :=
  Cursor.fold next body items.rounds value items

/-- Open a bundle whose framing is valid to its end. -/
def checked (reader : JsonReader) (bundle : Bytes) (format : BundleFormat) :
    Checked BundleItems := do
  let framing ← new reader bundle format
  let _ ← framing.forEach (fun count _ => pure (count + 1)) 0
  new reader bundle format

/-- The next entry of a bundle in terms of its format. -/
theorem next_eq_some {items rest : BundleItems} {entry : BundleEntry}
    (found : items.next = .ok (some (entry, rest))) :
    (∃ table others, items = .binary table ∧ rest = .binary others ∧
      table.next = .ok (some (entry, others))) ∨
    ∃ element entries ended, items = .json (element :: entries) ended ∧ entry = .json element ∧
      rest = .json entries ended := by
  cases items with
  | binary table =>
      left
      simp only [next, Checked.bind_eq_ok] at found
      obtain ⟨_ | ⟨_, others⟩, read, done⟩ := found
      · simp at done
      · simp only [Checked.pure_eq_ok, Option.some.injEq, Prod.mk.injEq] at done
        obtain ⟨rfl, rfl⟩ := done
        exact ⟨table, others, rfl, rfl, read⟩
  | json entries ended =>
      right
      cases entries with
      | nil => simp [next] at found
      | cons element entries =>
          simp only [next, Checked.pure_eq_ok, Option.some.injEq, Prod.mk.injEq] at found
          obtain ⟨rfl, rfl⟩ := found
          exact ⟨element, entries, ended, rfl, rfl, rfl⟩

theorem rounds_of_next {items rest : BundleItems} {entry : BundleEntry}
    (found : items.next = .ok (some (entry, rest))) : items.rounds = rest.rounds + 1 := by
  rcases next_eq_some found with ⟨table, others, rfl, rfl, read⟩ | ⟨_, _, _, rfl, _, rfl⟩
  · exact congrArg (· + 1) (BinaryBundleItems.advances_of_next read).remaining
  · rfl

theorem length_lt_rounds {items : BundleItems} {entries : List BundleEntry}
    (delivers : Cursor.Delivers next items entries) : entries.length < items.rounds := by
  induction delivers with
  | @done items _ => cases items <;> simp [rounds]
  | more found _ induction =>
      rw [rounds_of_next found, List.length_cons]
      exact Nat.succ_lt_succ induction

/-- A loop over a bundle is a loop over its entries. -/
theorem forEach_eq {β : Type} {items : BundleItems} {entries : List BundleEntry}
    (delivers : Cursor.Delivers next items entries) (body : β → BundleEntry → Checked β)
    (value : β) : items.forEach body value = entries.foldlM body value :=
  delivers.fold_eq body value (length_lt_rounds delivers)

/-- A bundle with valid framing delivers its entries. -/
theorem delivers_of_checked {reader : JsonReader} {bundle : Bytes} {format : BundleFormat}
    {items : BundleItems} (opened : checked reader bundle format = .ok items) :
    new reader bundle format = .ok items ∧ ∃ entries, Cursor.Delivers next items entries := by
  simp only [checked, Checked.bind_eq_ok] at opened
  obtain ⟨framing, framed, _, counted, opened⟩ := opened
  obtain rfl : framing = items := by simpa using framed.symm.trans opened
  obtain ⟨entries, delivers, _⟩ := Cursor.delivers_of_fold counted
  exact ⟨opened, entries, delivers⟩

theorem checked_of_delivers {reader : JsonReader} {bundle : Bytes} {format : BundleFormat}
    {items : BundleItems} {entries : List BundleEntry}
    (created : new reader bundle format = .ok items)
    (delivers : Cursor.Delivers next items entries) :
    checked reader bundle format = .ok items := by
  simp [checked, created, forEach_eq delivers]

end BundleItems

section Lookup

variable (crypto : CryptoSuite) (reader : JsonReader)

/-- Whether a lookup takes an entry: by its offset where one is known, else by the identifier in
the table, or by the digest of the signature in a second pass. -/
def BundleEntry.selected (expectedId : FixedBytes 32) (expectedOffset : Option Nat)
    (signatureLookup : Bool) (entry : BundleEntry) : Checked Bool :=
  match expectedOffset with
  | some expected => pure (decide (expected = entry.offset))
  | none =>
      if signatureLookup then entry.matchesSignatureId crypto.toHashSuite expectedId
      else pure (decide (entry.id = some expectedId))

/-- Look at one entry of a lookup.  Invalid JSON entries do not hide a later valid copy. -/
def lookupEntry (expectedId : FixedBytes 32) (expectedOffset materialize : Option Nat)
    (signatureLookup : Bool) (found : Option (VerifiedItem × Nat)) (entry : BundleEntry) :
    Checked (Option (VerifiedItem × Nat)) :=
  if found.isSome then pure found
  else do
    let selected ← entry.selected crypto expectedId expectedOffset signatureLookup
    if selected then
      match ← entry.verify crypto reader materialize with
      | none => pure none
      | some item => do
          Checked.ensure
            ((entry.id.any fun id => item.id crypto.toHashSuite id = expectedId) = true)
            "bundle item signed identity does not match requested ID"
          pure (some (item, entry.offset))
    else pure none

/-- One pass over a bundle. -/
def lookupPass (bundle : Bytes) (format : BundleFormat) (expectedId : FixedBytes 32)
    (expectedOffset materialize : Option Nat) (signatureLookup : Bool) :
    Checked (Option (VerifiedItem × Nat)) := do
  let entries ← BundleItems.new reader bundle format
  entries.forEach
    (lookupEntry crypto reader expectedId expectedOffset materialize signatureLookup) none

/-- `verify_bundle_item`. -/
def verifyBundleItem (bundle : Bytes) (format : BundleFormat) (expectedId : FixedBytes 32)
    (expectedOffset materialize : Option Nat) : Checked (VerifiedItem × Nat) := do
  let absent := "valid data item is absent from verified parent at the expected offset"
  match ← lookupPass crypto reader bundle format expectedId expectedOffset materialize false with
  | some found => pure found
  | none =>
      if format ≠ .binary ∨ expectedOffset.isSome then .error absent
      else do
        match ← lookupPass crypto reader bundle format expectedId expectedOffset materialize
            true with
        | some found => pure found
        | none => .error absent

/-- Where an item occurs in a root bundle. -/
structure BundleLocation where
  id : Bytes
  parentId : Bytes
  path : List Nat
  itemOffset : Nat
  itemSize : Nat
  dataOffset : Nat
  json : Bool
deriving DecidableEq

/-- What the index knows of an item: the root and the locations from the root down to it. -/
structure IndexedBundle where
  rootId : Bytes
  dataSize : Nat
  locations : List BundleLocation

/-- Verify the items along the locations that are left, from a parent on. -/
def verifyLocations (expectedId : FixedBytes 32) (dataSize : Nat) (materialize : Option Nat)
    (parent : Bytes) (format : BundleFormat) (parentId : Bytes) (path : List Nat) :
    List BundleLocation → Checked VerifiedItem
  | [] => .error "indexed bundle path is empty"
  | location :: rest => do
      Checked.ensure (location.parentId = parentId ∧ location.json = decide (format = .json))
        "indexed bundle parent or format does not match authenticated path"
      let id ← (toFixed 32 location.id).mapError fun _ => "invalid indexed item ID"
      let (item, offset) ← verifyBundleItem crypto reader parent format id
        (some location.itemOffset) (if rest = [] then materialize else none)
      let path := path ++ [offset]
      Checked.ensure (location.path = path ∧ location.dataOffset = item.dataOffset ∧
          location.itemSize = item.itemSize)
        "indexed bundle path, offsets or size do not match authenticated item"
      if rest = [] then do
        Checked.ensure (id = expectedId) "indexed path ends at a different item"
        Checked.ensure (item.data.length = dataSize)
          "indexed data size does not match authenticated payload"
        pure item
      else do
        let format ← Checked.context item.bundleFormat
          "indexed ancestor is not a supported bundle"
        verifyLocations expectedId dataSize materialize item.data format location.id path rest

/-- `verify_indexed_bundle`. -/
def verifyIndexedBundle (root : Bytes) (format : BundleFormat) (expectedId : FixedBytes 32)
    (indexed : IndexedBundle) (materialize : Option Nat) : Checked VerifiedItem := do
  Checked.ensure (indexed.rootId.length = 32 ∧
      (1 ≤ indexed.locations.length ∧ indexed.locations.length ≤ maxBundleDepth))
    "invalid indexed bundle path"
  verifyLocations crypto reader expectedId indexed.dataSize materialize root format
    indexed.rootId [] indexed.locations

end Lookup

end ArIoGateway
