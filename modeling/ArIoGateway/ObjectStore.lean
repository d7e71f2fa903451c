import ArIoGateway.BundleFlags
import ArIoGateway.Objects
import ArIoGateway.TagDictionaries
import ArIoGateway.TransactionImport

/-!
# Immutable objects

The metadata of verified objects is written in batches: owners, objects and the packed references of
their tags.  What is stored is never changed, and a batch that contradicts it is refused.
-/

namespace ArIoGateway

open Octets

def maxBundleBatchSize : Nat := 4096

/-- How the database reads a text as a number, whether its checks let the number be stored, and
whether an entry of an index can hold bytes, alone or with a key behind them. -/
structure ColumnRules (ν : Type) where
  read : String → Option ν
  checks : String → Bool
  fitsIndex : Bytes → Bool
  fitsKeyedIndex : Bytes → Bool

/-- The columns of an object that its metadata fills. -/
structure ObjectColumns (ν : Type) where
  signature : Option Bytes
  anchor : Option Bytes
  ownerAddress : Option Bytes
  target : Option Bytes
  dataSize : Option Nat
  contentType : Option String
  contentEncoding : Option String
  signatureType : Option Int
  format : Option Int
  quantity : Option ν
  reward : Option ν
  denomination : Option Nat
  dataRoot : Option Bytes
deriving DecidableEq

/-- A row of `objects`. -/
structure StoredObject (ν : Type) where
  key : Nat
  id : Bytes
  kind : Int
  metadataComplete : Bool
  columns : ObjectColumns ν
  indexedAt : Option Nat
deriving DecidableEq

/-- The tables of objects, with the next key of an object. -/
structure ObjectStore (ν : Type) where
  owners : List (Bytes × Option Bytes)
  objects : List (StoredObject ν)
  names : TagDictionary
  values : TagDictionary
  objectTags : List (Nat × Bytes)
  next : Nat
deriving DecidableEq

/-- Texts that a column holds: those without a zero character. -/
def isColumnText (text : Option String) : Bool :=
  text.all fun text => text.toList.all (· ≠ Char.ofNat 0)

section Statements

variable {ν : Type} [DecidableEq ν] (rules : ColumnRules ν)

/-- Cast a text to a number. -/
def castNumeric (text : Option String) : Checked (Option ν) :=
  match text with
  | none => pure none
  | some text => do
      let value ← Checked.context (rules.read text) "invalid input syntax for type numeric"
      pure (some value)

/-- The columns of the metadata, as the statements cast them. -/
def columnsOf (object : ObjectMetadata) : Checked (ObjectColumns ν) := do
  Checked.ensure
    (isColumnText object.contentType = true ∧ isColumnText object.contentEncoding = true)
    "invalid byte sequence for encoding \"UTF8\""
  let quantity ← castNumeric rules object.quantity
  let reward ← castNumeric rules object.reward
  pure
    { signature := some object.signature
      anchor := some object.anchor
      ownerAddress := some object.ownerAddress
      target := some object.target
      dataSize := some object.dataSize
      contentType := object.contentType
      contentEncoding := object.contentEncoding
      signatureType := some object.signatureType
      format := object.format
      quantity := quantity
      reward := reward
      denomination := object.denomination
      dataRoot := object.dataRoot }

/-- The checks on the columns of a row that is written, and its entries in the indexes by owner and
by target. -/
def checkRow (object : ObjectMetadata) : Checked Unit := do
  Checked.ensure
    (object.quantity.all rules.checks = true ∧ object.reward.all rules.checks = true)
    "new row for relation \"objects\" violates check constraint"
  Checked.ensure (rules.fitsKeyedIndex object.ownerAddress = true)
    "index row size exceeds btree version 4 maximum 2704 for index \"objects_owner\""
  Checked.ensure (rules.fitsKeyedIndex object.target = true)
    "index row size exceeds btree version 4 maximum 2704 for index \"objects_target\""

/-- Insert the key of an owner, or fill in one that is not known yet. -/
def insertOwner (rows : List (Bytes × Option Bytes)) (owner : Bytes × Bytes) :
    List (Bytes × Option Bytes) :=
  match rows.find? fun row => row.1 = owner.1 with
  | some (_, some _) => rows
  | some (_, none) =>
      rows.map fun row => if row.1 = owner.1 then (row.1, some owner.2) else row
  | none => rows ++ [(owner.1, some owner.2)]

/-- Collect the owners of a batch, each with one key. -/
def collectOwners : List (Bytes × Bytes) → List ObjectMetadata → Checked (List (Bytes × Bytes))
  | owners, [] => pure owners
  | owners, object :: objects => do
      Checked.ensure (object.id.length = 32) "object ID must be 32 bytes"
      Checked.ensure (object.kind = 0 ∨ object.kind = 1) "invalid object kind"
      Checked.ensure (object.tags.length < 2 ^ 31) "too many object tags"
      match owners.find? fun owner => owner.1 = object.ownerAddress with
      | some owner => do
          Checked.ensure (owner.2 = object.ownerPublicKey)
            "conflicting immutable owner in metadata batch"
          collectOwners owners objects
      | none => collectOwners (owners ++ [(object.ownerAddress, object.ownerPublicKey)]) objects

/-- The key by which a batch is sorted. -/
def objectOrder (object : ObjectMetadata) : List Nat := object.id.map UInt8.toNat

/-- An incoming object with its columns. -/
abbrev Incoming (ν : Type) := ObjectMetadata × ObjectColumns ν

/-- Whether no row has the ID of an object. -/
def isMissing (store : ObjectStore ν) (incoming : Incoming ν) : Bool :=
  store.objects.all fun row => decide (row.id ≠ incoming.1.id)

/-- Whether a row is one that the object completes. -/
def completes (row : StoredObject ν) (incoming : Incoming ν) : Bool :=
  decide (row.id = incoming.1.id ∧ row.metadataComplete = false ∧ row.kind = incoming.1.kind)

/-- Complete the row of an object that was stored without its metadata. -/
def completeRow (now : Nat) (batch : List (Incoming ν)) (row : StoredObject ν) : StoredObject ν :=
  match batch.find? (completes row) with
  | some incoming =>
      { row with
        metadataComplete := true
        columns := incoming.2
        indexedAt := some now }
  | none => row

/-- A new row. -/
def newRow (now : Nat) (key : Nat) (incoming : Incoming ν) : StoredObject ν where
  key := key
  id := incoming.1.id
  kind := incoming.1.kind
  metadataComplete := true
  columns := incoming.2
  indexedAt := some now

/-- The objects of a batch that have no row. -/
def missingObjects (batch : List (Incoming ν)) (store : ObjectStore ν) : List (Incoming ν) :=
  batch.filter (isMissing store)

/-- The rows of the objects that have none, with the next keys. -/
def insertedRows (now : Nat) (batch : List (Incoming ν)) (store : ObjectStore ν) :
    List (StoredObject ν) :=
  let missing := missingObjects batch store
  ((List.range' store.next missing.length).zip missing).map fun row => newRow now row.1 row.2

/-- The keys of the rows that are completed or inserted. -/
def completedKeys (now : Nat) (batch : List (Incoming ν)) (store : ObjectStore ν) : List Nat :=
  (store.objects.filter fun row => batch.any (completes row)).map StoredObject.key ++
    (insertedRows now batch store).map StoredObject.key

/-- The tables with the rows completed and inserted. -/
def withRows (now : Nat) (batch : List (Incoming ν)) (store : ObjectStore ν) : ObjectStore ν :=
  { store with
    objects := store.objects.map (completeRow now batch) ++ insertedRows now batch store
    next := store.next + (missingObjects batch store).length }

/-- Complete and insert the objects of a batch; the keys of the rows that were written. -/
def writeRows (now : Nat) (batch : List (Incoming ν)) (store : ObjectStore ν) :
    Checked (List Nat × ObjectStore ν) := do
  let written := batch.filter fun incoming =>
    store.objects.any (completes · incoming) || isMissing store incoming
  written.forM fun incoming => checkRow rules incoming.1
  ensureSequence store.next (missingObjects batch store).length
  pure (completedKeys now batch store, withRows now batch store)

/-- A row is complete and the same as an incoming object. -/
def Matches (row : StoredObject ν) (incoming : Incoming ν) : Prop :=
  row.id = incoming.1.id ∧ row.metadataComplete = true ∧ row.kind = incoming.1.kind ∧
    row.columns = incoming.2

instance (row : StoredObject ν) (incoming : Incoming ν) : Decidable (Matches row incoming) :=
  inferInstanceAs (Decidable (_ ∧ _))

/-- The keys of the rows that match the incoming objects, in the order of these. -/
def matchRows (batch : List (Incoming ν)) (store : ObjectStore ν) : List Nat :=
  batch.flatMap fun incoming =>
    (store.objects.filter fun row => Matches row incoming).map StoredObject.key

/-- The distinct bytes of the names or the values of tags, in order. -/
def tagEntries (part : Bytes × Bytes → Bytes) (objects : List ObjectMetadata) : List Bytes :=
  Batches.sortBy (fun entry : Bytes => entry.map UInt8.toNat)
    (objects.flatMap fun object => object.tags.map part).dedup

/-- `resolve_tags`. -/
def resolveTags (objects : List ObjectMetadata) (store : ObjectStore ν) :
    Checked ((Dictionary × Dictionary) × ObjectStore ν) := do
  let (names, nameKeys) ← store.names.resolve (tagEntries Prod.fst objects)
  let (values, valueKeys) ← store.values.resolve (tagEntries Prod.snd objects)
  pure ((nameKeys, valueKeys), { store with names := names, values := values })

/-- The keys of the tags, resolved unless they are at hand. -/
def keysOfTags (dictionaryKeys : Option (Dictionary × Dictionary)) (objects : List ObjectMetadata)
    (store : ObjectStore ν) : Checked ((Dictionary × Dictionary) × ObjectStore ν) :=
  match dictionaryKeys with
  | some keys => pure (keys, store)
  | none => resolveTags objects store

/-- The references of an object in the table, none without a row. -/
def tagRefs (rows : List (Nat × Bytes)) (key : Nat) : Bytes :=
  ((rows.find? fun row => row.1 = key).map Prod.snd).getD []

/-- Insert the references of one batch for the objects that were completed, and compare all. -/
def writeTagBatch (keys : Dictionary × Dictionary) (completed : List Nat) (store : ObjectStore ν)
    (batch : List ObjectMetadata × List Nat) : Checked (ObjectStore ν) := do
  let refs ← batch.1.mapM fun object => packRefs keys.1 keys.2 object.tags
  let rows := batch.2.zip refs
  let inserted := freshRows store.objectTags
    (rows.filter fun row => row.1 ∈ completed ∧ row.2 ≠ [])
  Checked.ensure (∀ row ∈ inserted, ∀ ref ∈ decodeTagRefs row.2,
      ref.1 ∈ store.names.rows.map Prod.fst ∧ ref.2 ∈ store.values.rows.map Prod.fst)
    "Missing packed tag dictionary reference"
  let tags := store.objectTags ++ inserted
  Checked.ensure (∀ row ∈ rows, row.2 = tagRefs tags row.1) "conflicting immutable ordered tags"
  pure { store with objectTags := tags }

/-- The loop over the batches of objects and their keys. -/
def writeTags (keys : Dictionary × Dictionary) (completed : List Nat)
    (objects : List ObjectMetadata) (objectKeys : List Nat) (store : ObjectStore ν) :
    Checked (ObjectStore ν) :=
  ((Batches.chunks metadataBatchSize objects).zip
    (Batches.chunks metadataBatchSize objectKeys)).foldlM (writeTagBatch keys completed) store

/-- Sort the objects, refuse an ID with two values and leave out repetitions. -/
def distinctObjects (objects : List ObjectMetadata) : Checked (List ObjectMetadata) := do
  let sorted := Batches.sortBy objectOrder objects
  Checked.ensure (Batches.Consistent objectOrder sorted)
    "conflicting immutable object in metadata batch"
  pure (Batches.dedupBy objectOrder sorted)

/-- Write the owners, and refuse one that has another key.  A new address is a key of the table. -/
def writeOwners (owners : List (Bytes × Bytes)) (store : ObjectStore ν) :
    Checked (ObjectStore ν) := do
  Checked.ensure (∀ owner ∈ owners, (∀ row ∈ store.owners, row.1 ≠ owner.1) →
      rules.fitsIndex owner.1 = true)
    "index row size exceeds btree version 4 maximum 2704 for index \"owners_pkey\""
  let rows := owners.foldl insertOwner store.owners
  Checked.ensure (∀ owner ∈ owners, ∀ row ∈ rows, row.1 = owner.1 → row.2 = some owner.2)
    "conflicting immutable owner public key"
  pure { store with owners := rows }

/-- Write the rows of the objects: the keys of those that were completed, and the keys of all. -/
def writeMetadata (now : Nat) (objects : List ObjectMetadata) (store : ObjectStore ν) :
    Checked ((List Nat × List Nat) × ObjectStore ν) := do
  let batch ← objects.mapM fun object => do pure (object, ← columnsOf rules object)
  let (completed, store) ← writeRows rules now batch store
  let keys := matchRows batch store
  Checked.ensure (keys.length = objects.length) "conflicting immutable object metadata"
  pure ((completed, keys), store)

/-- `write_objects_with_keys`, with the keys of the tags when they are resolved already. -/
def writeObjectsWithKeys (now : Nat) (objects : List ObjectMetadata)
    (dictionaryKeys : Option (Dictionary × Dictionary)) (store : ObjectStore ν) :
    Checked (List Nat × ObjectStore ν) := do
  Checked.ensure (objects.length ≤ maxBundleBatchSize) "metadata batch exceeds 4096 objects"
  if objects.isEmpty then pure ([], store)
  else
    let objects ← distinctObjects objects
    let owners ← collectOwners [] objects
    let store ← writeOwners rules owners store
    let ((completed, keys), store) ← writeMetadata rules now objects store
    let (dictionaryKeys, store) ← keysOfTags dictionaryKeys objects store
    let store ← writeTags dictionaryKeys completed objects keys store
    pure (keys, store)

/-- `write_objects`. -/
def writeObjects (now : Nat) (objects : List ObjectMetadata) (store : ObjectStore ν) :
    Checked (List Nat × ObjectStore ν) :=
  writeObjectsWithKeys rules now objects none store

/-- `record_objects`: the entries of the tags are committed first, and what was written is rolled
back when the batch is refused. -/
def recordObjects (now : Nat) (objects : List ObjectMetadata) (store : ObjectStore ν) :
    Checked Unit × ObjectStore ν :=
  let interned : Checked ((Dictionary × Dictionary) × ObjectStore ν) :=
    if objects.isEmpty then pure (([], []), store) else resolveTags objects store
  match interned with
  | .error error => (.error error, store)
  | .ok (keys, interned) =>
      match writeObjectsWithKeys rules now objects (some keys) interned with
      | .error error => (.error error, interned)
      | .ok (_, after) => (.ok (), after)

/-- The tags of an object, read through the dictionaries. -/
def ObjectStore.storedTags (store : ObjectStore ν) (key : Nat) : List (Bytes × Bytes) :=
  TagStore.storedTags ⟨store.names.rows, store.values.rows, [], store.objectTags⟩ key

/-- What holds of the tables at any time: IDs, keys and addresses are distinct, and references are
the packed tags of complete objects. -/
structure ObjectStore.Sound (store : ObjectStore ν) : Prop where
  ids : (store.objects.map StoredObject.id).Nodup
  keys : (store.objects.map StoredObject.key).Nodup
  below : ∀ row ∈ store.objects, row.key < store.next
  bound : store.next ≤ 2 ^ 63
  owners : (store.owners.map Prod.fst).Nodup
  names : store.names.Sound
  values : store.values.Sound
  rows : (store.objectTags.map Prod.fst).Nodup
  packed : ∀ row ∈ store.objectTags,
    (∃ object ∈ store.objects, object.key = row.1 ∧ object.metadataComplete = true) ∧
      ∃ tags, tags ≠ [] ∧ packRefs store.names.rows store.values.rows tags = .ok row.2

/-- The values of a row pass the checks and fit the indexes. -/
structure ColumnRules.Holds (object : ObjectMetadata) : Prop where
  numbers : object.quantity.all rules.checks = true ∧ object.reward.all rules.checks = true
  owner : rules.fitsKeyedIndex object.ownerAddress = true
  target : rules.fitsKeyedIndex object.target = true

/-- A batch that the tables can hold: sizes and kinds are right, texts and numbers are valid, the
addresses of new owners fit their index, and the values of the objects that are not complete yet
pass the checks and fit theirs. -/
structure Writable (store : ObjectStore ν) (batch : List ObjectMetadata) : Prop where
  size : batch.length ≤ maxBundleBatchSize
  shape : ∀ object ∈ batch, object.id.length = 32 ∧ (object.kind = 0 ∨ object.kind = 1) ∧
    object.tags.length < 2 ^ 31
  texts : ∀ object ∈ batch,
    isColumnText object.contentType = true ∧ isColumnText object.contentEncoding = true
  numbers : ∀ object ∈ batch, ∀ text, text ∈ object.quantity ∨ text ∈ object.reward →
    (rules.read text).isSome = true
  addresses : ∀ object ∈ batch, (∀ row ∈ store.owners, row.1 ≠ object.ownerAddress) →
    rules.fitsIndex object.ownerAddress = true
  checked : ∀ object ∈ batch,
    (∀ row ∈ store.objects, row.id = object.id → row.metadataComplete = false) →
      rules.Holds object

/-- The sequences have keys for all objects and tags of a batch. -/
structure Room (store : ObjectStore ν) (batch : List ObjectMetadata) : Prop where
  objects : store.next + batch.length ≤ 2 ^ 63
  names : store.names.next + (batch.flatMap ObjectMetadata.tags).length ≤ 2 ^ 63
  values : store.values.next + (batch.flatMap ObjectMetadata.tags).length ≤ 2 ^ 63

/-- A batch that agrees with itself and with what is stored. -/
structure Admits (store : ObjectStore ν) (batch : List ObjectMetadata) : Prop where
  objects : ∀ left ∈ batch, ∀ right ∈ batch, left.id = right.id → left = right
  owners : ∀ left ∈ batch, ∀ right ∈ batch, left.ownerAddress = right.ownerAddress →
    left.ownerPublicKey = right.ownerPublicKey
  known : ∀ object ∈ batch, ∀ row ∈ store.owners, row.1 = object.ownerAddress →
    row.2 = none ∨ row.2 = some object.ownerPublicKey
  stored : ∀ object ∈ batch, ∀ row ∈ store.objects, row.id = object.id →
    row.metadataComplete = false ∧ row.kind = object.kind ∨
      row.metadataComplete = true ∧ row.kind = object.kind ∧
        columnsOf rules object = .ok row.columns ∧ store.storedTags row.key = object.tags

end Statements

end ArIoGateway
