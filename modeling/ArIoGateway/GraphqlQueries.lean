import ArIoGateway.BundleFlags
import ArIoGateway.Foundation.Ranking
import ArIoGateway.Foundation.JsonText
import Mathlib.Data.Prod.Lex
import Mathlib.Data.List.Lex

/-!
# GraphQL queries

A filter on transactions becomes the clauses of one query over the placements in the canonical
chain.  There are three ways to run it: with a test of the tags of every object, with the objects
that have the tags looked up first, and with one limited branch for every owner or recipient that is
asked for.
-/

namespace ArIoGateway

open Octets

/-- What is stored of an object whose metadata is complete.  None of it may be missing there except
for the columns that are optional here, and it is not read of another object. -/
structure GraphqlMetadata where
  signature : Bytes
  anchor : Bytes
  signatureType : Nat
  target : Bytes
  ownerAddress : Bytes
  reward : Option Nat
  quantity : Option Nat
  dataSize : Nat
  contentType : Option String
  indexedAt : Fin (2 ^ 63)

/-- A row of `objects`; `metadata_complete` says whether there is metadata. -/
structure GraphqlObject where
  key : Nat
  id : FixedBytes 32
  metadata : Option GraphqlMetadata

/-- A row of `canonical_placements`. -/
structure GraphqlPlacement where
  objectKey : Nat
  blockHeight : Fin (2 ^ 63)
  position : Fin (2 ^ 31)
  kind : Fin 2
  id : FixedBytes 32
  locationKey : Option Nat
  ownerFilter : Option Nat
  recipientFilter : Option Nat
deriving DecidableEq

/-- A row of `blocks`. -/
structure GraphqlBlock where
  height : Fin (2 ^ 63)
  hash : FixedBytes 48
  previousHash : Option (FixedBytes 48)
  timestamp : Option (Fin (2 ^ 63))

/-- A row of `owners`. -/
structure OwnerRow where
  address : Bytes
  publicKey : Option Bytes

/-- A row of `canonical_blocks`. -/
structure CanonicalBlock where
  height : Fin (2 ^ 63)
  blockHash : FixedBytes 48
deriving DecidableEq

/-- A row of `item_locations`. -/
structure ItemLocation where
  key : Nat
  parentKey : Nat

/-- The tables that queries read.  A row is found by its primary key. -/
structure GraphqlSnapshot where
  placements : List GraphqlPlacement
  objects : List GraphqlObject
  owners : List OwnerRow
  canonicalBlocks : List CanonicalBlock
  blocks : List GraphqlBlock
  locations : List ItemLocation
  tags : TagStore

namespace GraphqlSnapshot

variable (snapshot : GraphqlSnapshot)

def objectAt (key : Nat) : Option GraphqlObject :=
  snapshot.objects.find? fun object => object.key = key

/-- The block with a hash at a height. -/
def blockAt (height : Fin (2 ^ 63)) (hash : FixedBytes 48) : Option GraphqlBlock :=
  snapshot.blocks.find? fun block => block.height = height ∧ block.hash = hash

/-- The block at a height of the canonical chain. -/
def canonicalBlockAt (height : Fin (2 ^ 63)) : Option GraphqlBlock := do
  let canonical ← snapshot.canonicalBlocks.find? fun canonical => canonical.height = height
  snapshot.blockAt canonical.height canonical.blockHash

def ownerAt (address : Bytes) : Option OwnerRow :=
  snapshot.owners.find? fun owner => owner.address = address

/-- The object that an item lies in. -/
def parentOf (locationKey : Option Nat) : Option GraphqlObject := do
  let key ← locationKey
  let location ← snapshot.locations.find? fun location => location.key = key
  snapshot.objectAt location.parentKey

end GraphqlSnapshot

/-- `graphql_filter`. -/
def graphqlFilter (suite : HashSuite) (value : Bytes) : Nat := objectIdPrefix (suite.sha256 [value])

/-- The values that the filter columns get from the metadata. -/
def filterColumns (suite : HashSuite) (metadata : Option GraphqlMetadata) :
    Option Nat × Option Nat :=
  match metadata with
  | some metadata =>
      (some (graphqlFilter suite metadata.ownerAddress),
        if metadata.target ≠ [] then some (graphqlFilter suite metadata.target) else none)
  | none => (none, none)

/-- `set_placement_filters`, before a placement is inserted. -/
def setPlacementFilters (suite : HashSuite) (objects : List GraphqlObject)
    (placement : GraphqlPlacement) : GraphqlPlacement :=
  let columns :=
    filterColumns suite ((objects.find? fun object => object.key = placement.objectKey).bind
      GraphqlObject.metadata)
  { placement with ownerFilter := columns.1, recipientFilter := columns.2 }

/-- `complete_placement_filters`, after objects are updated. -/
def completePlacementFilters (suite : HashSuite) (old new : List GraphqlObject)
    (placement : GraphqlPlacement) : GraphqlPlacement :=
  let columns (objects : List GraphqlObject) :=
    ((objects.find? fun object => object.key = placement.objectKey).bind
      GraphqlObject.metadata).map fun metadata => (metadata.ownerAddress, metadata.target)
  if columns new ≠ columns old then setPlacementFilters suite new placement else placement

/-- The filter columns are as the triggers maintain them. -/
def FilterColumns (suite : HashSuite) (snapshot : GraphqlSnapshot) : Prop :=
  ∀ placement ∈ snapshot.placements,
    setPlacementFilters suite snapshot.objects placement = placement

/-- `SortOrder`. -/
inductive SortOrder where
  | heightAsc
  | heightDesc
deriving DecidableEq

/-- `MaybeUndefined`. -/
inductive MaybeUndefined (α : Type) where
  | undefined
  | null
  | value (value : α)

/-- `TagFilter`; there is one operator, which is equality. -/
structure TagFilter where
  name : String
  values : List String

/-- `BlockFilter`. -/
structure BlockFilter where
  min : Option Int := none
  max : Option Int := none
deriving DecidableEq

/-- `TransactionFilter`. -/
structure TransactionFilter where
  ids : List String := []
  owners : List String := []
  recipients : List String := []
  tags : List TagFilter := []
  bundledIn : MaybeUndefined (List String) := .undefined
  block : BlockFilter := {}
  first : Nat
  after : Option String := none
  sort : SortOrder := .heightDesc

/-- Text without the padding at its end, `trim_end_matches('=')`. -/
def trimPadding (text : Bytes) : Bytes := (text.reverse.dropWhile (· = 61)).reverse

/-- `decode_list`, with room for a number of values. -/
def decodeList : (room : Nat) → List String → Checked (List Bytes)
  | _, [] => pure []
  | 0, _ :: _ => .error "Filter exceeds 1000 values"
  | room + 1, value :: values => do
      let decoded ← Checked.context (base64Decode (trimPadding (utf8 value)))
        "Invalid base64url filter value"
      return decoded :: (← decodeList room values)

/-- The keys of a place in the total order: height, position, kind and identifier. -/
abbrev PlacementRank := Nat ×ₗ Nat ×ₗ Nat ×ₗ Nat

def PlacementRank.of (height position kind : Nat) (id : FixedBytes 32) : PlacementRank :=
  toLex (height, toLex (position, toLex (kind, ofBigEndian id.val)))

def GraphqlPlacement.rank (placement : GraphqlPlacement) : PlacementRank :=
  .of placement.blockHeight placement.position placement.kind placement.id

/-- The key of a name and the keys of its values. -/
abbrev TagGroup := Nat × List Nat

/-- What can be added to the condition of a query over placements and their objects. -/
inductive Clause where
  | idAny (prefixes : List Nat) (ids : List Bytes)
  | targetAny (values : List Bytes)
  | unbundled
  | bundledIn (ids : List Bytes)
  | heightFrom (least : Nat)
  | heightTo (most : Nat)
  | never
  | behind (sort : SortOrder) (cursor : PlacementRank)
  | ownerAny (addresses : List Bytes)
  | tagged (name : String) (values : List String)
  | taggedKeys (group : TagGroup)
  | inMatchedTags (first : TagGroup) (others : List TagGroup)
  | ownerBranch (wanted : Bytes)
  | recipientBranch (wanted : Bytes)
  | noRecipient
deriving DecidableEq

/-- Whether a reference is in a group. -/
def TagGroup.matches (group : TagGroup) (ref : Nat × Nat) : Bool :=
  ref.1 = group.1 ∧ ref.2 ∈ group.2

/-- The keys of a name, found by its digest. -/
def nameKeys (suite : HashSuite) (names : Dictionary) (name : String) : List Nat :=
  (names.filter fun row =>
    suite.sha256 [row.2] = suite.sha256 [utf8 name] ∧ row.2 = utf8 name).map Prod.fst

/-- `matched_tags`: the objects with a reference in the first group and in each of the others. -/
def matchedTags (store : TagStore) (first : TagGroup) (others : List TagGroup) : List Nat :=
  (store.objectTags.flatMap fun row =>
    ((decodeTagRefs row.2).filter fun ref =>
      first.matches ref ∧ others.all fun group =>
        (store.readObjectTags row.1).any fun matching => group.matches matching).map
      fun _ => row.1).dedup

/-- Whether a row comes behind a cursor. -/
def SortOrder.comparison {κ : Type} [LinearOrder κ] (sort : SortOrder) (rank cursor : κ) : Bool :=
  match sort with
  | .heightAsc => cursor < rank
  | .heightDesc => rank < cursor

/-- Whether a clause holds of a placement and the metadata of its object. -/
def Clause.holds (suite : HashSuite) (snapshot : GraphqlSnapshot) (placement : GraphqlPlacement)
    (object : GraphqlObject) (metadata : GraphqlMetadata) : Clause → Bool
  | .idAny prefixes ids => ofBigEndian (object.id.val.take 8) ∈ prefixes ∧ object.id.val ∈ ids
  | .targetAny values => metadata.target ∈ values
  | .unbundled => placement.kind = 0
  | .bundledIn ids =>
      placement.kind = 1 ∧ (snapshot.locations.any fun location =>
        decide (some location.key = placement.locationKey) &&
          snapshot.objects.any fun parent =>
            parent.key = location.parentKey ∧ parent.id.val ∈ ids)
  | .heightFrom least => least ≤ placement.blockHeight.val
  | .heightTo most => placement.blockHeight.val ≤ most
  | .never => false
  | .behind sort cursor => sort.comparison placement.rank cursor
  | .ownerAny addresses => metadata.ownerAddress ∈ addresses
  | .tagged name values =>
      (snapshot.tags.readObjectTags object.key).any fun ref =>
        ref.1 ∈ nameKeys suite snapshot.tags.names name ∧
          ref.2 ∈ values.flatMap (valueKeys suite snapshot.tags.values)
  | .taggedKeys group => (snapshot.tags.readObjectTags object.key).any group.matches
  | .inMatchedTags first others => object.key ∈ matchedTags snapshot.tags first others
  | .ownerBranch wanted =>
      placement.ownerFilter = some (graphqlFilter suite wanted) ∧ metadata.ownerAddress = wanted
  | .recipientBranch wanted =>
      placement.recipientFilter = some (graphqlFilter suite wanted) ∧ metadata.target = wanted
  | .noRecipient => metadata.target = []

/-- The condition of the query: the metadata of the object is complete, the block at the height has
its timestamp, and all clauses hold. -/
def selected (suite : HashSuite) (snapshot : GraphqlSnapshot) (clauses : List Clause)
    (placement : GraphqlPlacement) : Bool :=
  match snapshot.objectAt placement.objectKey with
  | some object =>
      match object.metadata with
      | some metadata =>
          ((snapshot.canonicalBlockAt placement.blockHeight).bind GraphqlBlock.timestamp).isSome &&
            clauses.all fun clause => clause.holds suite snapshot placement object metadata
      | none => false
  | none => false

/-- The order of rows by their rank. -/
def SortOrder.ordered {α κ : Type} [LinearOrder κ] (rank : α → κ) (sort : SortOrder)
    (first second : α) : Prop :=
  match sort with
  | .heightAsc => rank first ≤ rank second
  | .heightDesc => rank second ≤ rank first

instance {α κ : Type} [LinearOrder κ] (rank : α → κ) (sort : SortOrder) :
    DecidableRel (sort.ordered rank) := fun first second => by
  unfold SortOrder.ordered
  cases sort <;> exact inferInstance

/-- The order of a query over placements. -/
abbrev SortOrder.before (sort : SortOrder) : GraphqlPlacement → GraphqlPlacement → Prop :=
  sort.ordered GraphqlPlacement.rank

mutual

/-- `Value::to_string`. -/
def JsonValue.print : JsonValue → Bytes
  | .null => utf8 "null"
  | .bool true => utf8 "true"
  | .bool false => utf8 "false"
  | .number text => utf8 text
  | .string text => JsonText.printString .lower (utf8 text)
  | .array [] => utf8 "[]"
  | .array (item :: items) => 91 :: (item.print ++ JsonValue.printItems items)
  | .object [] => utf8 "{}"
  | .object ((name, value) :: fields) =>
      123 :: (JsonText.printString .lower (utf8 name) ++ 58 ::
        (value.print ++ JsonValue.printFields fields))

/-- The items behind the first one, with the closing bracket. -/
def JsonValue.printItems : List JsonValue → Bytes
  | [] => [93]
  | item :: items => 44 :: (item.print ++ JsonValue.printItems items)

/-- The fields behind the first one, with the closing brace. -/
def JsonValue.printFields : List (String × JsonValue) → Bytes
  | [] => [125]
  | (name, value) :: fields =>
      44 :: (JsonText.printString .lower (utf8 name) ++ 58 ::
        (value.print ++ JsonValue.printFields fields))

end

/-- `Value::as_i64`. -/
def JsonValue.asI64 : JsonValue → Option Int
  | .number text => parseI64 text
  | _ => none

/-- `Value::as_bool`. -/
def JsonValue.asBool : JsonValue → Option Bool
  | .bool value => some value
  | _ => none

/-- `encode_cursor`. -/
def encodeCursor (value : JsonValue) : String := base64Text value.print

section Parsing

variable (parse : Bytes → Option JsonValue)

/-- `decode_cursor`. -/
def decodeCursor (cursor : String) : Checked JsonValue := do
  Checked.ensure ((utf8 cursor).length ≤ 1024) "Invalid cursor"
  let bytes ← Checked.context (base64Decode (trimPadding (utf8 cursor))) "Invalid cursor"
  Checked.context (parse bytes) "Invalid cursor"

/-- `transaction_cursor`: the clauses that a cursor adds.  The index holds placements in the
canonical chain; a pending transaction is above all of them. -/
def transactionCursor (cursor : String) (sort : SortOrder) : Checked (List Clause) := do
  let invalid := "Invalid transaction cursor"
  match ← decodeCursor parse cursor with
  | .array [height, position, kind, id, indexedAt] =>
      let id ← Checked.context id.asStr invalid
      let id ← (decodeFixed 32 id "cursor ID").mapError fun _ => invalid
      let kind ← Checked.context kind.asBool invalid
      Checked.ensure (indexedAt.isNull = true ∨ ∃ time ∈ indexedAt.asI64, 0 ≤ time) invalid
      if height.isNull = true ∧ position.isNull = true ∧ indexedAt.asI64.isSome = true then
        pure (if sort = .heightAsc then [.never] else [])
      else
        let height ← Checked.context (height.asI64.filter fun height => 0 ≤ height) invalid
        let position ← Checked.context
          (position.asI64.filter fun position => 0 ≤ position ∧ position < 2 ^ 31) invalid
        pure [.behind sort (.of height.toNat position.toNat (if kind then 1 else 0) id)]
  | _ => .error invalid

/-- The order of bytes. -/
def bytesLe (first second : Bytes) : Prop := first.map UInt8.toNat ≤ second.map UInt8.toNat

instance : DecidableRel bytesLe := fun first second =>
  inferInstanceAs (Decidable (first.map UInt8.toNat ≤ second.map UInt8.toNat))

/-- The order of groups. -/
def groupLe (first second : TagGroup) : Prop := toLex first ≤ toLex second

instance : DecidableRel groupLe := fun first second =>
  inferInstanceAs (Decidable (toLex first ≤ toLex second))

/-- `sort_unstable` and `dedup`: in order, and without repetitions. -/
def sortDedup {α : Type} [DecidableEq α] (le : α → α → Prop) [DecidableRel le] (values : List α) :
    List α :=
  (values.insertionSort le).dedup

/-- The clauses for the bounds of the height; negative bounds are left out. -/
def heightClauses (bounds : BlockFilter) : List Clause :=
  ((bounds.min.filter fun least => 0 ≤ least).map fun least => .heightFrom least.toNat).toList ++
    ((bounds.max.filter fun most => 0 ≤ most).map fun most => .heightTo most.toNat).toList

/-- The clause for identifiers; only those of eight bytes or more have a prefix. -/
def idClauses (ids : List String) : Checked (List Clause) :=
  if ids = [] then pure []
  else do
    let ids ← decodeList 1000 ids
    let prefixes := (ids.filter fun id => 8 ≤ id.length).map fun id => ofBigEndian (id.take 8)
    pure [.idAny prefixes ids]

def recipientClauses (recipients : List Bytes) : List Clause :=
  if recipients = [] then [] else [.targetAny recipients]

def bundledClauses : MaybeUndefined (List String) → Checked (List Clause)
  | .undefined => pure []
  | .null => pure [.unbundled]
  | .value ids => do pure [.bundledIn (← decodeList 1000 ids)]

/-- The clauses for the cursor; an empty one is none. -/
def afterClauses (after : Option String) (sort : SortOrder) : Checked (List Clause) :=
  match after.filter fun cursor => cursor ≠ "" with
  | some cursor => transactionCursor parse cursor sort
  | none => pure []

/-- What a filter says before the database is asked. -/
structure PreparedFilter where
  owners : List Bytes
  recipients : List Bytes
  clauses : List Clause
deriving DecidableEq

/-- The part of `transactions` before the database is asked. -/
def prepareFilter (tagSearchEnabled : Bool) (filter : TransactionFilter) :
    Checked PreparedFilter := do
  let ids ← idClauses filter.ids
  let owners ← decodeList 1000 filter.owners
  let recipients := sortDedup bytesLe (← decodeList 1000 filter.recipients)
  let bundled ← bundledClauses filter.bundledIn
  Checked.ensure (filter.tags.length ≤ 128) "Filter exceeds 128 tags"
  Checked.ensure (∀ tag ∈ filter.tags, tag.values.length ≤ 1000) "Tag filter exceeds 1000 values"
  let after ← afterClauses parse filter.after filter.sort
  Checked.ensure (tagSearchEnabled = true ∨ filter.tags = [])
    "Tag filtering is temporarily unavailable"
  pure
    { owners, recipients
      clauses := ids ++ recipientClauses recipients ++ bundled ++ heightClauses filter.block ++
        after }

end Parsing

/-- The addresses of owners that are named by address or by public key.  Without names there is no
restriction; names of nobody leave nothing to look for. -/
def resolveOwners (snapshot : GraphqlSnapshot) (owners : List Bytes) :
    Option (Option (List Bytes)) :=
  if owners = [] then some none
  else
    let resolved := ((snapshot.owners.filter fun owner =>
      owner.address ∈ owners ∨ ∃ key ∈ owner.publicKey, key ∈ owners).map OwnerRow.address).dedup
    if resolved = [] then none else some (some resolved)

/-- `tag_first`: whether tags are the only restriction and there are some of them. -/
def TransactionFilter.tagFirst (filter : TransactionFilter) : Bool :=
  filter.ids.isEmpty && filter.owners.isEmpty && filter.recipients.isEmpty &&
    filter.block.min.isNone && filter.block.max.isNone &&
      (match filter.bundledIn with
        | .undefined => true
        | _ => false) && decide (1 < filter.tags.length)

section Plans

variable (suite : HashSuite) (snapshot : GraphqlSnapshot)

/-- The keys of the names and values of the tags, unless one of them has none. -/
def tagGroups : List TagFilter → Option (List TagGroup)
  | [] => some []
  | tag :: tags => do
      let rows := (nameKeys suite snapshot.tags.names tag.name).flatMap fun name =>
        tag.values.flatMap fun value =>
          (valueKeys suite snapshot.tags.values value).map fun key => (name, key)
      let first ← rows.head?
      let groups ← tagGroups tags
      some ((first.1, sortDedup (· ≤ ·) (rows.map Prod.snd)) :: groups)

/-- The clauses for tags: with keys that are looked up first, or with a test of every object.  There
is nothing to look for when a name or all values of a tag are unknown. -/
def tagClauses (tagFirst : Bool) (tags : List TagFilter) : Option (List Clause) :=
  if tagFirst then do
    let groups ← tagGroups suite snapshot tags
    match sortDedup groupLe groups with
    | [] => some []
    | [group] => some [.taggedKeys group]
    | first :: others => some [.inMatchedTags first others]
  else some (tags.map fun tag => .tagged tag.name tag.values)

/-- A query in order, with a limit. -/
def runQuery (sort : SortOrder) (limit : Nat) (clauses : List Clause) : List GraphqlPlacement :=
  Ranking.top sort.before limit (snapshot.placements.filter (selected suite snapshot clauses))

/-- The query with a branch for every owner, or for every recipient. -/
def runBranches (sort : SortOrder) (limit : Nat) (clauses : List Clause)
    (owners : Option (List Bytes)) (recipients : List Bytes) : List GraphqlPlacement :=
  let branch (clause : Clause) := runQuery suite snapshot sort limit (clauses ++ [clause])
  let rows :=
    match owners with
    | some values => values.flatMap fun wanted => branch (.ownerBranch wanted)
    | none =>
        (if recipients.any fun value => value ≠ [] then
          (recipients.filter fun value => value ≠ []).flatMap fun wanted =>
            branch (.recipientBranch wanted)
        else []) ++
          if recipients.head? = some [] then branch .noRecipient else []
  Ranking.top sort.before limit rows

/-- How a request is run. -/
structure QueryPlan where
  tagFirst : Bool
  filterIndexes : Bool

/-- The page of `transactions`, with a row more than asked for. -/
def selectPage (parse : Bytes → Option JsonValue) (tagSearchEnabled : Bool) (plan : QueryPlan)
    (filter : TransactionFilter) : Checked (List GraphqlPlacement) := do
  let prepared ← prepareFilter parse tagSearchEnabled filter
  match resolveOwners snapshot prepared.owners with
  | none => pure []
  | some owners =>
      match tagClauses suite snapshot plan.tagFirst filter.tags with
      | none => pure []
      | some tagClauses =>
          let ownerClauses := (owners.map Clause.ownerAny).toList
          let clauses := prepared.clauses ++ ownerClauses ++ tagClauses
          let limit := filter.first + 1
          if plan.filterIndexes = true ∧ filter.ids = [] ∧
              (owners.isSome = true ∨ prepared.recipients ≠ []) then
            pure (runBranches suite snapshot filter.sort limit clauses owners prepared.recipients)
          else pure (runQuery suite snapshot filter.sort limit clauses)

/-- The plan that `transactions` chooses. -/
def TransactionFilter.plan (filterIndexesEnabled : Bool) (filter : TransactionFilter) :
    QueryPlan where
  tagFirst := filter.tagFirst
  filterIndexes := filterIndexesEnabled

/-- The plan with a test of every object. -/
def plainPlan : QueryPlan where
  tagFirst := false
  filterIndexes := false

end Plans

end ArIoGateway
