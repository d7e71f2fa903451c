import ArIoGateway.Bundles
import ArIoGateway.Foundation.Runs
import ArIoGateway.TagStore
import Mathlib.Data.Fintype.Powerset

/-!
# Classification of bundles

Whether tags announce a bundle, and in which format, is decided in three places: by the program, by
the queries that look a root up and check a parent, and by the trigger that keeps the flag of an
object.  The database compares names after it has escaped and translated them.
-/

namespace ArIoGateway

open Octets

/-- `encode(…,'escape')`: zero bytes and bytes of the upper half are octal numbers behind a
backslash, and a backslash is doubled. -/
def encodeEscape (value : Bytes) : Bytes :=
  value.flatMap fun byte =>
    if byte.toNat = 0 ∨ 128 ≤ byte.toNat then
      [92, UInt8.ofNat (48 + byte.toNat / 64), UInt8.ofNat (48 + byte.toNat / 8 % 8),
        UInt8.ofNat (48 + byte.toNat % 8)]
    else if byte = 92 then [92, 92]
    else [byte]

/-- `translate`: what stands in the first list becomes what stands at its place in the second one. -/
def translate (text source target : Bytes) : Bytes :=
  text.flatMap fun byte =>
    match source.idxOf? byte with
    | none => [byte]
    | some place => target[place]?.toList

def upperLetters : Bytes := utf8 "ABCDEFGHIJKLMNOPQRSTUVWXYZ"
def lowerLetters : Bytes := utf8 "abcdefghijklmnopqrstuvwxyz"

/-- A name as the queries compare it. -/
def foldedName (value : Bytes) : Bytes := translate (encodeEscape value) upperLetters lowerLetters

/-- `BUNDLE_FORMAT_FLAGS` for one object: whether its tags announce a binary and a JSON bundle.  An
object without tags has no row. -/
def bundleFormatFlags (tags : List (Bytes × Bytes)) : Option (Bool × Bool) :=
  let anyTag (name value : String) : Bool :=
    tags.any fun tag => decide (foldedName tag.1 = utf8 name) && decide (tag.2 = utf8 value)
  if tags.isEmpty then none
  else
    some (anyTag "bundle-format" "binary" && anyTag "bundle-version" "2.0.0",
      anyTag "bundle-format" "json" && anyTag "bundle-version" "1.0.0")

/-- `bundle_candidates`: whether a root is a JSON bundle, when it is a bundle. -/
def bundleCandidate (tags : List (Bytes × Bytes)) : Option Bool := do
  let (isBinary, isJson) ← bundleFormatFlags tags
  if isBinary ≠ isJson then some isJson else none

/-- The part of the check of a nested parent that is about its format. -/
def parentConflict (tags : List (Bytes × Bytes)) (json : Bool) : Bool :=
  let format := bundleFormatFlags tags
  !((format.map fun flags => decide (flags.1 ≠ flags.2)).getD false) ||
    decide (format.map Prod.snd ≠ some json)

/-- A row of `bundle_tags`: the keys of the tags that announce a format. -/
structure BundleCriterion where
  formatName : Nat
  formatValue : Nat
  versionName : Nat
  versionValue : Nat
  json : Bool

/-- The first eight bytes of a digest, as a number. -/
def objectIdPrefix (digest : FixedBytes 32) : Nat := ofBigEndian (digest.val.take 8)

/-- The keys of a name, in any case. -/
def foldedKeys (names : Dictionary) (name : String) : List Nat :=
  (names.filter fun row => foldedName row.2 = utf8 name).map Prod.fst

/-- The keys of a value, found by the prefix of its digest. -/
def valueKeys (suite : HashSuite) (values : Dictionary) (value : String) : List Nat :=
  (values.filter fun row =>
    objectIdPrefix (suite.sha256 [row.2]) = objectIdPrefix (suite.sha256 [utf8 value]) ∧
      row.2 = utf8 value).map Prod.fst

/-- `bundle_tags`. -/
def bundleCriteria (suite : HashSuite) (store : TagStore) : List BundleCriterion :=
  [("binary", "2.0.0", false), ("json", "1.0.0", true)].flatMap fun (format, version, json) =>
    (foldedKeys store.names "bundle-format").flatMap fun formatName =>
      (valueKeys suite store.values format).flatMap fun formatValue =>
        (foldedKeys store.names "bundle-version").flatMap fun versionName =>
          (valueKeys suite store.values version).map fun versionValue =>
            ⟨formatName, formatValue, versionName, versionValue, json⟩

/-- Whether the references of an object meet the criteria of exactly one format. -/
def recognized (suite : HashSuite) (store : TagStore) (key : Nat) : Bool :=
  let localTags := store.readObjectTags key
  let met := (bundleCriteria suite store).filter fun criteria =>
    (criteria.formatName, criteria.formatValue) ∈ localTags ∧
      (criteria.versionName, criteria.versionValue) ∈ localTags
  decide ((met.map BundleCriterion.json).dedup.length = 1)

/-- `refresh_bundle_flags`, for the objects it picks. -/
def refreshBundleFlags (suite : HashSuite) (ids : List Nat) (store : TagStore) : TagStore :=
  { store with
    objects := store.objects.map fun object =>
      if object.key ∈ ids then { object with isBundle := recognized suite store object.key }
      else object }

/-- The objects that the trigger picks after an insertion: those with a name of interest. -/
def insertedIds (names : Dictionary) (rows : List (Nat × Bytes)) : List Nat :=
  (rows.filter fun row => (decodeTagRefs row.2).any fun ref =>
    names.any fun name => decide (name.1 = ref.1) &&
      (decide (foldedName name.2 = utf8 "bundle-format") ||
        decide (foldedName name.2 = utf8 "bundle-version"))).map Prod.fst

/-- What is done to the tables: objects and entries of the dictionaries come, unused entries go, and
rows of tags are inserted, where none is, or made longer, or replaced, or removed. -/
inductive TagStatement where
  | insertObject (key : Nat) (metadataComplete : Bool)
  | completeObject (key : Nat)
  | insertName (key : Nat) (value : Bytes)
  | insertValue (key : Nat) (value : Bytes)
  | deleteName (key : Nat)
  | deleteValue (key : Nat)
  | insertTags (rows : List (Nat × Bytes))
  | appendTags (rows : List (Nat × Bytes))
  | updateTags (rows : List (Nat × Bytes))
  | deleteTags (keys : List Nat)
  | truncateTags

/-- The rows of an insertion that find no row of their object, of several for one object the first. -/
def freshRows (stored : List (Nat × Bytes)) : List (Nat × Bytes) → List (Nat × Bytes)
  | [] => []
  | row :: rows =>
      if row.1 ∈ stored.map Prod.fst then freshRows stored rows
      else row :: freshRows (stored ++ [row]) rows

/-- The references of a row after an update. -/
def updatedRow (rows : List (Nat × Bytes)) (change : Bytes → Bytes → Bytes)
    (stored : Nat × Bytes) : Nat × Bytes :=
  match rows.find? fun row => row.1 = stored.1 with
  | some row => (stored.1, change stored.2 row.2)
  | none => stored

/-- `validate_tag_refs`, with the constraints of `object_tags`. -/
def validateTags (store : TagStore) (keys : List Nat) : Checked Unit := do
  let rows := store.objectTags.filter fun row => row.1 ∈ keys
  Checked.ensure (∀ row ∈ rows, row.2 ≠ [] ∧ row.2.length % 16 = 0) "object_tags_refs_check"
  Checked.ensure (∀ row ∈ rows, row.1 ∈ store.objects.map ObjectRow.key)
    "object_tags_object_key_fkey"
  Checked.ensure (∀ row ∈ rows, ∀ ref ∈ decodeTagRefs row.2,
      ref.1 ∈ store.names.map Prod.fst ∧ ref.2 ∈ store.values.map Prod.fst)
    "Missing packed tag dictionary reference"

/-- An entry of a dictionary, with a new key and new bytes. -/
def insertEntry (dictionary : Dictionary) (key : Nat) (value : Bytes) : Checked Dictionary := do
  Checked.ensure (key ∉ dictionary.map Prod.fst ∧ key < 2 ^ 63) "duplicate key"
  Checked.ensure (value ∉ dictionary.map Prod.snd) "Duplicate tag bytes"
  pure (dictionary ++ [(key, value)])

/-- The references of all objects. -/
def TagStore.references (store : TagStore) : List (Nat × Nat) :=
  store.objectTags.flatMap fun row => decodeTagRefs row.2

/-- A statement on the tables, with its triggers.  A statement that fails changes nothing. -/
def TagStatement.run (suite : HashSuite) (store : TagStore) : TagStatement → Checked TagStore
  | .insertObject key metadataComplete => do
      Checked.ensure (key ∉ store.objects.map ObjectRow.key) "duplicate key"
      pure { store with objects := store.objects ++ [⟨key, metadataComplete, false⟩] }
  | .completeObject key =>
      pure { store with
        objects := store.objects.map fun object =>
          if object.key = key then { object with metadataComplete := true } else object }
  | .insertName key value => do
      pure { store with names := ← insertEntry store.names key value }
  | .insertValue key value => do
      pure { store with values := ← insertEntry store.values key value }
  | .deleteName key => do
      Checked.ensure (key ∉ store.references.map Prod.fst) "Referenced packed tag dictionary key"
      pure { store with names := store.names.filter fun row => row.1 ≠ key }
  | .deleteValue key => do
      Checked.ensure (key ∉ store.references.map Prod.snd) "Referenced packed tag dictionary key"
      pure { store with values := store.values.filter fun row => row.1 ≠ key }
  | .insertTags rows => do
      let inserted := freshRows store.objectTags rows
      let store := { store with objectTags := store.objectTags ++ inserted }
      validateTags store (inserted.map Prod.fst)
      pure (refreshBundleFlags suite (insertedIds store.names inserted) store)
  | .appendTags rows => do
      Checked.ensure (rows.map Prod.fst).Nodup "command cannot affect row a second time"
      let inserted := freshRows store.objectTags rows
      let changed := rows.filter fun row => row.1 ∈ store.objectTags.map Prod.fst
      let store := { store with
        objectTags := store.objectTags.map (updatedRow changed (· ++ ·)) ++ inserted }
      validateTags store (rows.map Prod.fst)
      pure (refreshBundleFlags suite
        (insertedIds store.names inserted ++ changed.map Prod.fst) store)
  | .updateTags rows => do
      let changed := store.objectTags.filter fun row => row.1 ∈ rows.map Prod.fst
      let store := { store with
        objectTags := store.objectTags.map (updatedRow rows fun _ refs => refs) }
      validateTags store (changed.map Prod.fst)
      pure (refreshBundleFlags suite (changed.map Prod.fst) store)
  | .deleteTags keys =>
      let deleted := store.objectTags.filter fun row => row.1 ∈ keys
      pure (refreshBundleFlags suite (deleted.map Prod.fst)
        { store with objectTags := store.objectTags.filter fun row => row.1 ∉ keys })
  | .truncateTags =>
      pure { store with
        objectTags := []
        objects := store.objects.map fun object => { object with isBundle := false } }

theorem translateByte (byte : UInt8) :
    (match upperLetters.idxOf? byte with
      | none => [byte]
      | some place => (lowerLetters[place]?).toList) = [asciiLower byte] := by
  have all : ∀ n : Fin 256, (match upperLetters.idxOf? (UInt8.ofNat n.val) with
      | none => [UInt8.ofNat n.val]
      | some place => (lowerLetters[place]?).toList) = [asciiLower (UInt8.ofNat n.val)] := by
    decide +kernel
  simpa using all ⟨byte.toNat, byte.toNat_lt⟩

theorem translate_letters (text : Bytes) :
    translate text upperLetters lowerLetters = text.map asciiLower := by
  rw [translate, List.map_eq_flatMap]
  exact List.flatMap_congr fun byte _ => translateByte byte

/-- Whether a byte stands for itself when it is escaped. -/
def Plain (byte : UInt8) : Prop := byte ≠ 92 ∧ byte.toNat ≠ 0 ∧ byte.toNat < 128

theorem encodeEscape_of_plain {value : Bytes} (plain : ∀ byte ∈ value, Plain byte) :
    encodeEscape value = value := by
  unfold encodeEscape
  refine (List.flatMap_congr fun byte member => ?_).trans (List.flatMap_singleton' value)
  obtain ⟨slash, zero, lower⟩ := plain byte member
  rw [if_neg (by omega), if_neg slash]

/-- A byte that does not stand for itself leaves a backslash. -/
theorem slash_mem_encodeEscape {value : Bytes} {byte : UInt8} (member : byte ∈ value)
    (special : ¬ Plain byte) : 92 ∈ encodeEscape value := by
  refine List.mem_flatMap.mpr ⟨byte, member, ?_⟩
  split
  · exact List.mem_cons_self
  · next ordinary =>
      split
      · exact List.mem_cons_self
      · next slash => exact (special ⟨slash, by omega, by omega⟩).elim

theorem plain_asciiLower {byte : UInt8} (plain : Plain (asciiLower byte)) : Plain byte := by
  unfold asciiLower at plain
  split at plain
  · next letter =>
      refine ⟨fun slash => ?_, by omega, by omega⟩
      subst slash
      exact absurd letter.2 (by decide)
  · exact plain

/-- On words without bytes that are escaped, the comparison of the database is the one of the
program. -/
theorem foldedName_eq_iff {value word : Bytes} (plain : ∀ byte ∈ word, Plain byte) :
    foldedName value = word ↔ value.map asciiLower = word := by
  rw [foldedName, translate_letters]
  constructor
  · intro same
    rwa [encodeEscape_of_plain] at same
    intro byte member
    by_contra special
    have slash := @List.mem_map_of_mem _ _ _ _ asciiLower (slash_mem_encodeEscape member special)
    rw [same] at slash
    exact (plain _ slash).1 (by decide)
  · intro same
    rwa [encodeEscape_of_plain]
    intro byte member
    exact plain_asciiLower (plain _ (same ▸ List.mem_map_of_mem member))

/-- Whether a tag has a name, in any case, and a value. -/
def announces (name value : String) (tag : Bytes × Bytes) : Bool :=
  eqIgnoreAsciiCase tag.1 (utf8 name) && decide (tag.2 = utf8 value)

/-- Whether tags announce a binary bundle. -/
def announcesBinary (tags : List (Bytes × Bytes)) : Bool :=
  tags.any (announces "Bundle-Format" "binary") && tags.any (announces "Bundle-Version" "2.0.0")

/-- Whether tags announce a JSON bundle. -/
def announcesJson (tags : List (Bytes × Bytes)) : Bool :=
  tags.any (announces "Bundle-Format" "json") && tags.any (announces "Bundle-Version" "1.0.0")

theorem not_format_of_version {name : Bytes}
    (version : eqIgnoreAsciiCase name (utf8 "Bundle-Version")) :
    eqIgnoreAsciiCase name (utf8 "Bundle-Format") = false := by
  have differ : (utf8 "Bundle-Version").map asciiLower ≠ (utf8 "Bundle-Format").map asciiLower := by
    decide
  simp only [eqIgnoreAsciiCase, decide_eq_true_eq, decide_eq_false_iff_not] at version ⊢
  exact fun format => differ (version.symm.trans format)

/-- The flags after a list of tags. -/
theorem foldl_formatFlags (tags : List (Bytes × Bytes)) (flags : FormatFlags) :
    tags.foldl FormatFlags.add flags =
      { binary := flags.binary || tags.any (announces "Bundle-Format" "binary")
        json := flags.json || tags.any (announces "Bundle-Format" "json")
        v1 := flags.v1 || tags.any (announces "Bundle-Version" "1.0.0")
        v2 := flags.v2 || tags.any (announces "Bundle-Version" "2.0.0") } := by
  induction tags generalizing flags with
  | nil => simp
  | cons tag tags induction =>
      rw [List.foldl_cons, induction]
      simp only [List.any_cons, announces, FormatFlags.add]
      cases version : eqIgnoreAsciiCase tag.1 (utf8 "Bundle-Version") with
      | true =>
          simp [not_format_of_version version, Bool.or_assoc]
      | false =>
          cases format : eqIgnoreAsciiCase tag.1 (utf8 "Bundle-Format") <;>
            simp [Bool.or_assoc]

/-- The program takes tags for a bundle when they announce exactly one format. -/
theorem fromPairs_eq_ok {tags : List (Bytes × Bytes)} {format : BundleFormat} :
    BundleFormat.fromPairs tags = .ok format ↔
      announcesBinary tags ≠ announcesJson tags ∧
        (announcesJson tags = decide (format = .json)) := by
  rw [BundleFormat.fromPairs, foldl_formatFlags]
  simp only [Bool.false_or]
  rw [← announcesBinary, ← announcesJson]
  cases announcesBinary tags <;> cases announcesJson tags <;> cases format <;> simp

theorem plain_of_all {word : Bytes}
    (plain : (word.all fun byte => byte ≠ 92 ∧ byte.toNat ≠ 0 ∧ byte.toNat < 128) = true) :
    ∀ byte ∈ word, Plain byte := by
  simpa [Plain] using plain

theorem foldedName_format {name : Bytes} :
    foldedName name = utf8 "bundle-format" ↔ eqIgnoreAsciiCase name (utf8 "Bundle-Format") := by
  have lower : (utf8 "Bundle-Format").map asciiLower = utf8 "bundle-format" := by decide
  rw [foldedName_eq_iff (plain_of_all (by decide)), eqIgnoreAsciiCase, lower,
    decide_eq_true_eq]

theorem foldedName_version {name : Bytes} :
    foldedName name = utf8 "bundle-version" ↔ eqIgnoreAsciiCase name (utf8 "Bundle-Version") := by
  have lower : (utf8 "Bundle-Version").map asciiLower = utf8 "bundle-version" := by decide
  rw [foldedName_eq_iff (plain_of_all (by decide)), eqIgnoreAsciiCase, lower,
    decide_eq_true_eq]

/-- The flags of the queries are what the tags announce. -/
theorem bundleFormatFlags_eq (tags : List (Bytes × Bytes)) :
    bundleFormatFlags tags =
      if tags.isEmpty then none else some (announcesBinary tags, announcesJson tags) := by
  have format (value : String) : (fun tag : Bytes × Bytes =>
      decide (foldedName tag.1 = utf8 "bundle-format") && decide (tag.2 = utf8 value)) =
        announces "Bundle-Format" value := by
    funext tag
    simp [announces, foldedName_format]
  have version (value : String) : (fun tag : Bytes × Bytes =>
      decide (foldedName tag.1 = utf8 "bundle-version") && decide (tag.2 = utf8 value)) =
        announces "Bundle-Version" value := by
    funext tag
    simp [announces, foldedName_version]
  simp only [bundleFormatFlags, format, version]
  rfl

theorem bundleCandidate_eq (tags : List (Bytes × Bytes)) :
    bundleCandidate tags =
      if announcesBinary tags ≠ announcesJson tags then some (announcesJson tags) else none := by
  rw [bundleCandidate, bundleFormatFlags_eq]
  cases tags with
  | nil => rfl
  | cons tag tags => rfl

theorem parentConflict_eq (tags : List (Bytes × Bytes)) (json : Bool) :
    parentConflict tags json = false ↔
      announcesBinary tags ≠ announcesJson tags ∧ announcesJson tags = json := by
  rw [parentConflict, bundleFormatFlags_eq]
  cases tags with
  | nil => simp [announcesBinary, announcesJson]
  | cons tag tags => simp

theorem mem_join {names values : Dictionary} {refs : List (Nat × Nat)} {tag : Bytes × Bytes} :
    tag ∈ TagStore.join names values refs ↔
      ∃ ref ∈ refs, (ref.1, tag.1) ∈ names ∧ (ref.2, tag.2) ∈ values := by
  simp only [TagStore.join, List.mem_flatMap, List.mem_map, List.mem_filter, decide_eq_true_eq]
  constructor
  · rintro ⟨⟨_, _⟩, member, ⟨_, _⟩, ⟨named, rfl⟩, ⟨_, _⟩, ⟨valued, rfl⟩, rfl⟩
    exact ⟨_, member, named, valued⟩
  · rintro ⟨ref, member, named, valued⟩
    exact ⟨ref, member, _, ⟨named, rfl⟩, _, ⟨valued, rfl⟩, rfl⟩

/-- Keys of a name and a value occur together in references when the tags announce them. -/
theorem exists_keys_iff {suite : HashSuite} {names values : Dictionary} {refs : List (Nat × Nat)}
    {folded name value : String}
    (spelled : ∀ other, foldedName other = utf8 folded ↔ eqIgnoreAsciiCase other (utf8 name)) :
    (∃ nameKey ∈ foldedKeys names folded, ∃ valueKey ∈ valueKeys suite values value,
      (nameKey, valueKey) ∈ refs) ↔
      (TagStore.join names values refs).any (announces name value) = true := by
  simp only [List.any_eq_true, mem_join, announces, Bool.and_eq_true, decide_eq_true_eq, foldedKeys,
    valueKeys, List.mem_map, List.mem_filter]
  constructor
  · rintro ⟨_, ⟨⟨nameKey, nameBytes⟩, ⟨named, fold⟩, rfl⟩, _, ⟨⟨valueKey, valueBytes⟩,
      ⟨valued, _, rfl⟩, rfl⟩, member⟩
    exact ⟨(nameBytes, utf8 value), ⟨_, member, named, valued⟩, (spelled _).mp fold, rfl⟩
  · rintro ⟨⟨nameBytes, _⟩, ⟨⟨nameKey, valueKey⟩, member, named, valued⟩, fold, rfl⟩
    exact ⟨nameKey, ⟨_, ⟨named, (spelled _).mpr fold⟩, rfl⟩, valueKey,
      ⟨_, ⟨valued, rfl, rfl⟩, rfl⟩, member⟩

/-- The criteria of a format are met when the tags announce it. -/
theorem exists_criteria_iff (suite : HashSuite) (store : TagStore) (key : Nat) (json : Bool) :
    (∃ criteria ∈ bundleCriteria suite store, criteria.json = json ∧
      (criteria.formatName, criteria.formatValue) ∈ store.readObjectTags key ∧
      (criteria.versionName, criteria.versionValue) ∈ store.readObjectTags key) ↔
      (if json then announcesJson (store.storedTags key)
        else announcesBinary (store.storedTags key)) = true := by
  have format (value : String) := @exists_keys_iff suite store.names store.values
    (store.readObjectTags key) "bundle-format" "Bundle-Format" value fun _ => foldedName_format
  have version (value : String) := @exists_keys_iff suite store.names store.values
    (store.readObjectTags key) "bundle-version" "Bundle-Version" value fun _ => foldedName_version
  have split : (∃ criteria ∈ bundleCriteria suite store, criteria.json = json ∧
      (criteria.formatName, criteria.formatValue) ∈ store.readObjectTags key ∧
      (criteria.versionName, criteria.versionValue) ∈ store.readObjectTags key) ↔
      ∃ names ∈ [("binary", "2.0.0", false), ("json", "1.0.0", true)], names.2.2 = json ∧
        (∃ nameKey ∈ foldedKeys store.names "bundle-format",
          ∃ valueKey ∈ valueKeys suite store.values names.1,
            (nameKey, valueKey) ∈ store.readObjectTags key) ∧
        ∃ nameKey ∈ foldedKeys store.names "bundle-version",
          ∃ valueKey ∈ valueKeys suite store.values names.2.1,
            (nameKey, valueKey) ∈ store.readObjectTags key := by
    simp only [bundleCriteria, List.mem_flatMap, List.mem_map]
    constructor
    · rintro ⟨_, ⟨names, listed, formatName, named, formatValue, valued, versionName, versioned,
        versionValue, numbered, rfl⟩, same, first, second⟩
      exact ⟨names, listed, same, ⟨formatName, named, formatValue, valued, first⟩, versionName,
        versioned, versionValue, numbered, second⟩
    · rintro ⟨names, listed, same, ⟨formatName, named, formatValue, valued, first⟩, versionName,
        versioned, versionValue, numbered, second⟩
      exact ⟨_, ⟨names, listed, formatName, named, formatValue, valued, versionName, versioned,
        versionValue, numbered, rfl⟩, same, first, second⟩
  rw [split]
  simp only [format, version]
  cases json <;>
    simp [announcesBinary, announcesJson, TagStore.storedTags]

theorem dedup_length_eq_one (values : List Bool) :
    values.dedup.length = 1 ↔ decide (false ∈ values) ≠ decide (true ∈ values) := by
  have sets : ∀ set : Finset Bool, set.card = 1 ↔ decide (false ∈ set) ≠ decide (true ∈ set) := by
    decide
  simpa [List.card_toFinset] using sets values.toFinset

/-- The trigger recognizes an object when its tags announce exactly one format. -/
theorem recognized_eq (suite : HashSuite) (store : TagStore) (key : Nat) :
    recognized suite store key =
      decide (announcesBinary (store.storedTags key) ≠ announcesJson (store.storedTags key)) := by
  have met (json : Bool) : json ∈ ((bundleCriteria suite store).filter fun criteria =>
      (criteria.formatName, criteria.formatValue) ∈ store.readObjectTags key ∧
        (criteria.versionName, criteria.versionValue) ∈ store.readObjectTags key).map
          BundleCriterion.json ↔
      (if json then announcesJson (store.storedTags key)
        else announcesBinary (store.storedTags key)) = true := by
    rw [← exists_criteria_iff suite store key json]
    simp only [List.mem_map, List.mem_filter, decide_eq_true_eq]
    constructor
    · rintro ⟨criteria, ⟨listed, first, second⟩, same⟩
      exact ⟨criteria, listed, same, first, second⟩
    · rintro ⟨criteria, listed, same, first, second⟩
      exact ⟨criteria, ⟨listed, first, second⟩, same⟩
  unfold recognized
  simp only [dedup_length_eq_one, met]
  simp

/-- An object without a name of interest is not recognized. -/
theorem recognized_eq_false {suite : HashSuite} {store : TagStore} {key : Nat}
    (plain : ∀ tag ∈ store.storedTags key, foldedName tag.1 ≠ utf8 "bundle-format") :
    recognized suite store key = false := by
  have none (value : String) :
      (store.storedTags key).any (announces "Bundle-Format" value) = false := by
    rw [List.any_eq_false]
    intro tag member
    simp only [announces, Bool.and_eq_true, ← foldedName_format]
    exact fun both => plain tag member both.1
  rw [recognized_eq, announcesBinary, announcesJson, none, none]
  rfl

/-- Whether tags announce exactly one format. -/
def classified (tags : List (Bytes × Bytes)) : Bool :=
  decide (announcesBinary tags ≠ announcesJson tags)

/-- What holds of the tables at any time: keys are distinct, references have entries and owners, and
the flag of each object is what its tags announce. -/
structure TagStore.Coherent (store : TagStore) : Prop where
  names : (store.names.map Prod.fst).Nodup ∧ ∀ row ∈ store.names, row.1 < 2 ^ 63
  values : (store.values.map Prod.fst).Nodup ∧ ∀ row ∈ store.values, row.1 < 2 ^ 63
  rows : (store.objectTags.map Prod.fst).Nodup
  referenced : ∀ row ∈ store.objectTags, ∀ ref ∈ decodeTagRefs row.2,
    ref.1 ∈ store.names.map Prod.fst ∧ ref.2 ∈ store.values.map Prod.fst
  owned : ∀ row ∈ store.objectTags, row.1 ∈ store.objects.map ObjectRow.key
  flags : ∀ object ∈ store.objects, object.isBundle = classified (store.storedTags object.key)

theorem TagStore.coherent_empty : TagStore.empty.Coherent := by
  constructor <;> simp [TagStore.empty]

/-- References are joined alike by dictionaries that agree on their keys. -/
theorem join_congr {names values names' values' : Dictionary} {refs : List (Nat × Nat)}
    (sameNames : ∀ ref ∈ refs, (names.filter fun row => row.1 = ref.1) =
      names'.filter fun row => row.1 = ref.1)
    (sameValues : ∀ ref ∈ refs, (values.filter fun row => row.1 = ref.2) =
      values'.filter fun row => row.1 = ref.2) :
    TagStore.join names values refs = TagStore.join names' values' refs :=
  List.flatMap_congr fun ref member => by rw [sameNames ref member, sameValues ref member]

/-- An entry with a new key does not matter to references that have their entries. -/
theorem filter_append_entry {dictionary : Dictionary} {key other : Nat} {value : Bytes}
    (fresh : key ∉ dictionary.map Prod.fst) (there : other ∈ dictionary.map Prod.fst) :
    ((dictionary ++ [(key, value)]).filter fun row => row.1 = other) =
      dictionary.filter fun row => row.1 = other := by
  have differs : key ≠ other := fun same => fresh (same ▸ there)
  rw [List.filter_append, List.filter_cons_of_neg (by simpa using differs), List.filter_nil,
    List.append_nil]

theorem filter_filter_entry {dictionary : Dictionary} {key other : Nat} (differs : other ≠ key) :
    ((dictionary.filter fun row => row.1 ≠ key).filter fun row => row.1 = other) =
      dictionary.filter fun row => row.1 = other := by
  rw [List.filter_filter]
  refine List.filter_congr fun row _ => ?_
  by_cases same : row.1 = other
  · simp [same, differs]
  · simp [same]

namespace TagStore

theorem mem_references {store : TagStore} {key : Nat} {ref : Nat × Nat}
    (member : ref ∈ store.readObjectTags key) :
    ∃ row ∈ store.objectTags, row.1 = key ∧ ref ∈ decodeTagRefs row.2 := by
  obtain ⟨row, inside, there⟩ := List.mem_flatMap.mp member
  obtain ⟨inside, same⟩ := List.mem_filter.mp inside
  exact ⟨row, inside, by simpa using same, there⟩

/-- An object without a row has no tags. -/
theorem storedTags_of_absent {store : TagStore} {key : Nat}
    (absent : key ∉ store.objectTags.map Prod.fst) : store.storedTags key = [] := by
  have none : (store.objectTags.filter fun row => row.1 = key) = [] :=
    List.filter_eq_nil_iff.mpr fun row member => by
      simpa using fun same : row.1 = key => absent (same ▸ List.mem_map_of_mem member)
  rw [storedTags, readObjectTags, none]
  rfl

/-- With one row for each object, its references are those that are read. -/
theorem readObjectTags_eq {store : TagStore} (rows : (store.objectTags.map Prod.fst).Nodup)
    (key : Nat) : store.readObjectTags key = decodeTagRefs (store.refsOf key) := by
  rw [readObjectTags, refsOf]
  cases found : store.objectTags.find? fun row => row.1 = key with
  | none =>
      have none : (store.objectTags.filter fun row => row.1 = key) = [] :=
        List.filter_eq_nil_iff.mpr fun row member => by
          simpa using List.find?_eq_none.mp found row member
      rw [none]
      rfl
  | some row =>
      have member := List.mem_of_find?_eq_some found
      have same : row.1 = key := by simpa using List.find?_some found
      have only : (store.objectTags.filter fun other => other.1 = key) = [row] := by
        have count : (store.objectTags.filter fun other => other.1 = key).length ≤ 1 := by
          have counted := List.nodup_iff_count_le_one.mp rows key
          rwa [List.count_eq_countP, List.countP_map, List.countP_eq_length_filter] at counted
        have inside : row ∈ store.objectTags.filter fun other => other.1 = key :=
          List.mem_filter.mpr ⟨member, by simpa using same⟩
        obtain ⟨single, list⟩ := List.length_eq_one_iff.mp
          (Nat.le_antisymm count (List.length_pos_of_mem inside))
        rw [list] at inside ⊢
        rw [List.mem_singleton.mp inside]
      rw [only, List.flatMap_singleton]
      rfl

/-- The trigger leaves flags that are right, when those that it does not pick are right already. -/
theorem Coherent.refresh {suite : HashSuite} {store : TagStore} {ids : List Nat}
    (names : (store.names.map Prod.fst).Nodup ∧ ∀ row ∈ store.names, row.1 < 2 ^ 63)
    (values : (store.values.map Prod.fst).Nodup ∧ ∀ row ∈ store.values, row.1 < 2 ^ 63)
    (rows : (store.objectTags.map Prod.fst).Nodup)
    (referenced : ∀ row ∈ store.objectTags, ∀ ref ∈ decodeTagRefs row.2,
      ref.1 ∈ store.names.map Prod.fst ∧ ref.2 ∈ store.values.map Prod.fst)
    (owned : ∀ row ∈ store.objectTags, row.1 ∈ store.objects.map ObjectRow.key)
    (others : ∀ object ∈ store.objects, object.key ∉ ids →
      object.isBundle = classified (store.storedTags object.key)) :
    (refreshBundleFlags suite ids store).Coherent := by
  have keys : (refreshBundleFlags suite ids store).objects.map ObjectRow.key =
      store.objects.map ObjectRow.key := by
    simp only [refreshBundleFlags, List.map_map]
    exact List.map_congr_left fun object _ => by simp only [Function.comp_apply]; split <;> rfl
  refine ⟨names, values, rows, referenced, fun row member => keys ▸ owned row member, ?_⟩
  intro object member
  obtain ⟨before, there, rfl⟩ := List.mem_map.mp member
  split
  · exact recognized_eq suite store before.key
  · next free => exact others before there free

theorem coherent_of_sameTags {before after : TagStore} (coherent : before.Coherent)
    (names : (after.names.map Prod.fst).Nodup ∧ ∀ row ∈ after.names, row.1 < 2 ^ 63)
    (values : (after.values.map Prod.fst).Nodup ∧ ∀ row ∈ after.values, row.1 < 2 ^ 63)
    (sameRows : after.objectTags = before.objectTags) (sameObjects : after.objects = before.objects)
    (sameNames : ∀ row ∈ before.objectTags, ∀ ref ∈ decodeTagRefs row.2,
      ref.1 ∈ after.names.map Prod.fst ∧
        (after.names.filter fun row => row.1 = ref.1) =
          before.names.filter fun row => row.1 = ref.1)
    (sameValues : ∀ row ∈ before.objectTags, ∀ ref ∈ decodeTagRefs row.2,
      ref.2 ∈ after.values.map Prod.fst ∧
        (after.values.filter fun row => row.1 = ref.2) =
          before.values.filter fun row => row.1 = ref.2) :
    after.Coherent := by
  have sameRead (key : Nat) : after.readObjectTags key = before.readObjectTags key := by
    rw [readObjectTags, sameRows, readObjectTags]
  refine ⟨names, values, sameRows ▸ coherent.rows, ?_, ?_, ?_⟩
  · intro row member ref there
    rw [sameRows] at member
    exact ⟨(sameNames row member ref there).1, (sameValues row member ref there).1⟩
  · rw [sameRows, sameObjects]
    exact coherent.owned
  · intro object member
    rw [sameObjects] at member
    rw [coherent.flags object member, storedTags, storedTags, sameRead]
    refine congrArg classified (join_congr (fun ref there => ?_) fun ref there => ?_)
    · obtain ⟨row, inside, _, there⟩ := mem_references there
      exact (sameNames row inside ref there).2.symm
    · obtain ⟨row, inside, _, there⟩ := mem_references there
      exact (sameValues row inside ref there).2.symm

end TagStore

theorem freshRows_spec (stored rows : List (Nat × Bytes)) :
    ((freshRows stored rows).map Prod.fst).Nodup ∧
      (∀ row ∈ freshRows stored rows, row.1 ∉ stored.map Prod.fst) ∧
      freshRows stored rows ⊆ rows := by
  induction rows generalizing stored with
  | nil => simp [freshRows]
  | cons row rows induction =>
      rw [freshRows]
      split
      · obtain ⟨distinct, fresh, subset⟩ := induction stored
        exact ⟨distinct, fresh, fun other member => List.mem_cons_of_mem _ (subset member)⟩
      · next absent =>
          obtain ⟨distinct, fresh, subset⟩ := induction (stored ++ [row])
          refine ⟨?_, ?_, ?_⟩
          · rw [List.map_cons, List.nodup_cons]
            refine ⟨fun member => ?_, distinct⟩
            obtain ⟨other, inside, same⟩ := List.mem_map.mp member
            exact fresh other inside (by simp [same])
          · rintro other (_ | ⟨_, member⟩)
            · exact absent
            · exact fun there => fresh other member (by simp [there])
          · rintro other (_ | ⟨_, member⟩)
            · exact List.mem_cons_self
            · exact List.mem_cons_of_mem _ (subset member)

theorem updatedRow_fst (rows : List (Nat × Bytes)) (change : Bytes → Bytes → Bytes)
    (stored : Nat × Bytes) : (updatedRow rows change stored).1 = stored.1 := by
  unfold updatedRow
  split <;> rfl

theorem updatedRow_of_absent {rows : List (Nat × Bytes)} {change : Bytes → Bytes → Bytes}
    {stored : Nat × Bytes} (absent : stored.1 ∉ rows.map Prod.fst) :
    updatedRow rows change stored = stored := by
  have none : (rows.find? fun row => row.1 = stored.1) = none :=
    List.find?_eq_none.mpr fun row member => by
      simpa using fun same : row.1 = stored.1 => absent (same ▸ List.mem_map_of_mem member)
  rw [updatedRow, none]

/-- The rows after a write: changed ones in their places, and new ones. -/
def TagStore.written (store : TagStore) (changed : List (Nat × Bytes))
    (change : Bytes → Bytes → Bytes) (inserted : List (Nat × Bytes)) : TagStore :=
  { store with objectTags := store.objectTags.map (updatedRow changed change) ++ inserted }

namespace TagStore

variable {store : TagStore} {changed inserted : List (Nat × Bytes)} {change : Bytes → Bytes → Bytes}

/-- An object whose row is neither changed nor inserted keeps its tags. -/
theorem storedTags_written {key : Nat} (untouched : key ∉ inserted.map Prod.fst)
    (unchanged : key ∈ changed.map Prod.fst → key ∉ store.objectTags.map Prod.fst) :
    (store.written changed change inserted).storedTags key = store.storedTags key := by
  have none : (inserted.filter fun row => row.1 = key) = [] :=
    List.filter_eq_nil_iff.mpr fun row member => by
      simpa using fun same : row.1 = key => untouched (same ▸ List.mem_map_of_mem member)
  have same : ((store.objectTags.map (updatedRow changed change)).filter fun row => row.1 = key) =
      store.objectTags.filter fun row => row.1 = key := by
    rw [List.filter_map]
    have keys : ((fun row : Nat × Bytes => decide (row.1 = key)) ∘ updatedRow changed change) =
        fun row => decide (row.1 = key) := by
      funext row
      simp [updatedRow_fst]
    rw [keys]
    refine (List.map_congr_left fun row member => ?_).trans (List.map_id _)
    obtain ⟨inside, named⟩ := List.mem_filter.mp member
    have named : row.1 = key := by simpa using named
    refine updatedRow_of_absent fun there => ?_
    exact unchanged (named ▸ there) (named ▸ List.mem_map_of_mem inside)
  rw [storedTags, storedTags, readObjectTags, readObjectTags]
  simp only [written, List.filter_append, none, List.append_nil, same]

theorem validateTags_eq_ok {keys : List Nat} (valid : validateTags store keys = .ok ()) :
    ∀ row ∈ store.objectTags, row.1 ∈ keys →
      row.1 ∈ store.objects.map ObjectRow.key ∧ ∀ ref ∈ decodeTagRefs row.2,
        ref.1 ∈ store.names.map Prod.fst ∧ ref.2 ∈ store.values.map Prod.fst := by
  simp only [validateTags, Checked.bind_eq_ok, Checked.ensure_eq_ok, List.mem_filter,
    decide_eq_true_eq] at valid
  obtain ⟨_, _, _, owned, referenced⟩ := valid
  intro row member inside
  exact ⟨owned row ⟨member, inside⟩, referenced row ⟨member, inside⟩⟩

/-- A row with a name of interest is picked after its insertion. -/
theorem mem_insertedIds {names values : Dictionary} {row : Nat × Bytes} {tag : Bytes × Bytes}
    (member : row ∈ inserted) (tagged : tag ∈ join names values (decodeTagRefs row.2))
    (format : foldedName tag.1 = utf8 "bundle-format") : row.1 ∈ insertedIds names inserted := by
  obtain ⟨ref, there, named, _⟩ := mem_join.mp tagged
  refine List.mem_map_of_mem (List.mem_filter.mpr ⟨member, ?_⟩)
  refine List.any_eq_true.mpr ⟨ref, there, List.any_eq_true.mpr ⟨_, named, ?_⟩⟩
  simp [format]

/-- A valid write keeps the tables coherent, when the trigger picks all rows that are changed and
those that are inserted with a name of interest. -/
theorem Coherent.write {suite : HashSuite} (coherent : store.Coherent) {keys ids : List Nat}
    (distinct : (inserted.map Prod.fst).Nodup)
    (fresh : ∀ row ∈ inserted, row.1 ∉ store.objectTags.map Prod.fst)
    (valid : validateTags (store.written changed change inserted) keys = .ok ())
    (validated : ∀ row ∈ inserted, row.1 ∈ keys)
    (revalidated : ∀ row ∈ store.objectTags, row.1 ∈ changed.map Prod.fst → row.1 ∈ keys)
    (picked : insertedIds store.names inserted ⊆ ids)
    (repicked : ∀ row ∈ store.objectTags, row.1 ∈ changed.map Prod.fst → row.1 ∈ ids) :
    (refreshBundleFlags suite ids (store.written changed change inserted)).Coherent := by
  have valid := validateTags_eq_ok valid
  have keysOf : (store.objectTags.map (updatedRow changed change)).map Prod.fst =
      store.objectTags.map Prod.fst := by
    rw [List.map_map]
    exact List.map_congr_left fun row _ => updatedRow_fst changed change row
  -- a row of the new table was validated, or it is an old one
  have rowCases : ∀ row ∈ (store.written changed change inserted).objectTags,
      row.1 ∈ keys ∨ row ∈ store.objectTags := by
    intro row member
    rcases List.mem_append.mp member with old | new
    · obtain ⟨before, inside, rfl⟩ := List.mem_map.mp old
      by_cases touched : before.1 ∈ changed.map Prod.fst
      · exact .inl (updatedRow_fst changed change before ▸ revalidated before inside touched)
      · exact .inr ((updatedRow_of_absent touched).symm ▸ inside)
    · exact .inl (validated row new)
  refine Coherent.refresh coherent.names coherent.values ?_ ?_ ?_ ?_
  · simp only [written, List.map_append, keysOf]
    refine List.nodup_append'.mpr ⟨coherent.rows, distinct, ?_⟩
    intro key old new
    obtain ⟨row, inside, rfl⟩ := List.mem_map.mp new
    exact fresh row inside old
  · intro row member
    rcases rowCases row member with validatedRow | old
    · exact (valid row member validatedRow).2
    · exact coherent.referenced row old
  · intro row member
    rcases rowCases row member with validatedRow | old
    · exact (valid row member validatedRow).1
    · exact coherent.owned row old
  · intro object member free
    rw [coherent.flags object member]
    by_cases new : object.key ∈ inserted.map Prod.fst
    · -- the object had no tags, and those that it has now say nothing of bundles
      obtain ⟨row, inside, same⟩ := List.mem_map.mp new
      rw [storedTags_of_absent (same ▸ fresh row inside)]
      have plain : ∀ tag ∈ (store.written changed change inserted).storedTags object.key,
          foldedName tag.1 ≠ utf8 "bundle-format" := by
        intro tag tagged format
        obtain ⟨ref, read, named, valued⟩ := mem_join.mp tagged
        obtain ⟨stored, there, sameKey, decoded⟩ := mem_references read
        rcases List.mem_append.mp there with old | newRow
        · obtain ⟨before, beforeInside, rfl⟩ := List.mem_map.mp old
          refine fresh row inside ?_
          rw [same, ← sameKey, updatedRow_fst]
          exact List.mem_map_of_mem beforeInside
        · have tagged : tag ∈ join store.names store.values (decodeTagRefs stored.2) :=
            mem_join.mpr ⟨ref, decoded, named, valued⟩
          exact free (picked (sameKey ▸ mem_insertedIds newRow tagged format))
      have still := recognized_eq suite (store.written changed change inserted) object.key
      rw [recognized_eq_false plain] at still
      exact still
    · refine congrArg classified (storedTags_written new fun there stored => ?_).symm
      obtain ⟨row, inside, same⟩ := List.mem_map.mp stored
      exact free (same ▸ repicked row inside (same.symm ▸ there))

end TagStore

theorem insertEntry_eq_ok {dictionary after : Dictionary} {key : Nat} {value : Bytes}
    (inserted : insertEntry dictionary key value = .ok after) :
    after = dictionary ++ [(key, value)] ∧ key ∉ dictionary.map Prod.fst ∧ key < 2 ^ 63 := by
  simp only [insertEntry, Checked.bind_eq_ok, Checked.ensure_eq_ok, Checked.pure_eq_ok] at inserted
  obtain ⟨_, ⟨fresh, small⟩, _, _, rfl⟩ := inserted
  exact ⟨rfl, fresh, small⟩

/-- A dictionary with another entry is still one with distinct keys. -/
theorem dictionary_append {dictionary : Dictionary} {key : Nat} {value : Bytes}
    (valid : (dictionary.map Prod.fst).Nodup ∧ ∀ row ∈ dictionary, row.1 < 2 ^ 63)
    (fresh : key ∉ dictionary.map Prod.fst) (small : key < 2 ^ 63) :
    ((dictionary ++ [(key, value)]).map Prod.fst).Nodup ∧
      ∀ row ∈ dictionary ++ [(key, value)], row.1 < 2 ^ 63 := by
  constructor
  · rw [List.map_append]
    exact List.nodup_append_comm.mp (List.nodup_cons.mpr ⟨fresh, valid.1⟩)
  · intro row member
    rcases List.mem_append.mp member with old | new
    · exact valid.2 row old
    · exact List.mem_singleton.mp new ▸ small

theorem dictionary_filter {dictionary : Dictionary} (keep : Nat × Bytes → Bool)
    (valid : (dictionary.map Prod.fst).Nodup ∧ ∀ row ∈ dictionary, row.1 < 2 ^ 63) :
    ((dictionary.filter keep).map Prod.fst).Nodup ∧
      ∀ row ∈ dictionary.filter keep, row.1 < 2 ^ 63 :=
  ⟨valid.1.sublist (List.filter_sublist.map _), fun row member =>
    valid.2 row (List.mem_of_mem_filter member)⟩

theorem mem_keys_append {dictionary : Dictionary} {key other : Nat} {value : Bytes}
    (there : other ∈ dictionary.map Prod.fst) :
    other ∈ (dictionary ++ [(key, value)]).map Prod.fst := by
  rw [List.map_append]
  exact List.mem_append_left _ there

theorem mem_keys_filter {dictionary : Dictionary} {key other : Nat}
    (there : other ∈ dictionary.map Prod.fst) (differs : other ≠ key) :
    other ∈ (dictionary.filter fun row => row.1 ≠ key).map Prod.fst := by
  obtain ⟨row, member, rfl⟩ := List.mem_map.mp there
  exact List.mem_map_of_mem (List.mem_filter.mpr ⟨member, by simpa using differs⟩)

namespace TagStore

theorem Coherent.insertObject {store : TagStore} (coherent : store.Coherent) {key : Nat}
    (fresh : key ∉ store.objects.map ObjectRow.key) (metadataComplete : Bool) :
    Coherent { store with objects := store.objects ++ [⟨key, metadataComplete, false⟩] } := by
  refine ⟨coherent.names, coherent.values, coherent.rows, coherent.referenced, ?_, ?_⟩
  · intro row member
    rw [List.map_append]
    exact List.mem_append_left _ (coherent.owned row member)
  · intro object member
    rcases List.mem_append.mp member with old | new
    · exact coherent.flags object old
    · obtain rfl := List.mem_singleton.mp new
      have absent : key ∉ store.objectTags.map Prod.fst := by
        intro there
        obtain ⟨row, inside, rfl⟩ := List.mem_map.mp there
        exact fresh (coherent.owned row inside)
      exact (congrArg classified (storedTags_of_absent absent)).symm

theorem Coherent.completeObject {store : TagStore} (coherent : store.Coherent) (key : Nat) :
    Coherent { store with
      objects := store.objects.map fun object =>
        if object.key = key then { object with metadataComplete := true } else object } := by
  refine ⟨coherent.names, coherent.values, coherent.rows, coherent.referenced, ?_, ?_⟩
  · intro row member
    have keys : (store.objects.map fun object =>
        if object.key = key then { object with metadataComplete := true } else object).map
          ObjectRow.key = store.objects.map ObjectRow.key := by
      rw [List.map_map]
      exact List.map_congr_left fun object _ => by simp only [Function.comp_apply]; split <;> rfl
    exact keys ▸ coherent.owned row member
  · intro object member
    obtain ⟨before, there, rfl⟩ := List.mem_map.mp member
    have right := coherent.flags before there
    split <;> exact right

theorem Coherent.deleteTags {suite : HashSuite} {store : TagStore} (coherent : store.Coherent)
    (keys : List Nat) :
    (refreshBundleFlags suite ((store.objectTags.filter fun row => row.1 ∈ keys).map Prod.fst)
      { store with objectTags := store.objectTags.filter fun row => row.1 ∉ keys }).Coherent := by
  refine Coherent.refresh coherent.names coherent.values
    (coherent.rows.sublist (List.filter_sublist.map _)) (fun row member =>
      coherent.referenced row (List.mem_of_mem_filter member)) (fun row member =>
      coherent.owned row (List.mem_of_mem_filter member)) fun object member free => ?_
  rw [coherent.flags object member, storedTags, storedTags, readObjectTags, readObjectTags]
  have same : ((store.objectTags.filter fun row => row.1 ∉ keys).filter
      fun row => row.1 = object.key) = store.objectTags.filter fun row => row.1 = object.key := by
    rw [List.filter_filter]
    refine List.filter_congr fun row inside => ?_
    by_cases named : row.1 = object.key
    · have kept : row.1 ∉ keys := fun there => free (named ▸ List.mem_map_of_mem
        (List.mem_filter.mpr ⟨inside, by simpa using there⟩))
      simp [named, named ▸ kept]
    · simp [named]
  simp only [same]

/-- Every statement that succeeds keeps the tables coherent. -/
theorem Coherent.run {suite : HashSuite} {store after : TagStore} (coherent : store.Coherent)
    {statement : TagStatement} (ran : statement.run suite store = .ok after) : after.Coherent := by
  cases statement with
  | insertObject key metadataComplete =>
      simp only [TagStatement.run, Checked.bind_eq_ok, Checked.ensure_eq_ok,
        Checked.pure_eq_ok] at ran
      obtain ⟨_, fresh, rfl⟩ := ran
      exact coherent.insertObject fresh metadataComplete
  | completeObject key =>
      cases ran
      exact coherent.completeObject key
  | insertName key value =>
      simp only [TagStatement.run, Checked.bind_eq_ok, Checked.pure_eq_ok] at ran
      obtain ⟨names, inserted, rfl⟩ := ran
      obtain ⟨rfl, fresh, small⟩ := insertEntry_eq_ok inserted
      refine coherent_of_sameTags coherent (dictionary_append coherent.names fresh small)
        coherent.values rfl rfl (fun row member ref there => ?_) fun row member ref there =>
          ⟨(coherent.referenced row member ref there).2, rfl⟩
      have known := (coherent.referenced row member ref there).1
      exact ⟨mem_keys_append known, filter_append_entry fresh known⟩
  | insertValue key value =>
      simp only [TagStatement.run, Checked.bind_eq_ok, Checked.pure_eq_ok] at ran
      obtain ⟨values, inserted, rfl⟩ := ran
      obtain ⟨rfl, fresh, small⟩ := insertEntry_eq_ok inserted
      refine coherent_of_sameTags coherent coherent.names
        (dictionary_append coherent.values fresh small) rfl rfl (fun row member ref there =>
          ⟨(coherent.referenced row member ref there).1, rfl⟩) fun row member ref there => ?_
      have known := (coherent.referenced row member ref there).2
      exact ⟨mem_keys_append known, filter_append_entry fresh known⟩
  | deleteName key =>
      simp only [TagStatement.run, Checked.bind_eq_ok, Checked.ensure_eq_ok,
        Checked.pure_eq_ok] at ran
      obtain ⟨_, unused, rfl⟩ := ran
      refine coherent_of_sameTags coherent (dictionary_filter _ coherent.names) coherent.values rfl
        rfl (fun row member ref there => ?_) fun row member ref there =>
          ⟨(coherent.referenced row member ref there).2, rfl⟩
      have differs : ref.1 ≠ key := fun same => unused (same ▸ List.mem_map_of_mem
        (List.mem_flatMap.mpr ⟨row, member, there⟩))
      exact ⟨mem_keys_filter (coherent.referenced row member ref there).1 differs,
        filter_filter_entry differs⟩
  | deleteValue key =>
      simp only [TagStatement.run, Checked.bind_eq_ok, Checked.ensure_eq_ok,
        Checked.pure_eq_ok] at ran
      obtain ⟨_, unused, rfl⟩ := ran
      refine coherent_of_sameTags coherent coherent.names (dictionary_filter _ coherent.values) rfl
        rfl (fun row member ref there => ⟨(coherent.referenced row member ref there).1, rfl⟩)
        fun row member ref there => ?_
      have differs : ref.2 ≠ key := fun same => unused (same ▸ List.mem_map_of_mem
        (List.mem_flatMap.mpr ⟨row, member, there⟩))
      exact ⟨mem_keys_filter (coherent.referenced row member ref there).2 differs,
        filter_filter_entry differs⟩
  | insertTags rows =>
      obtain ⟨distinct, fresh, _⟩ := freshRows_spec store.objectTags rows
      have same : store.written [] (fun _ refs => refs) (freshRows store.objectTags rows) =
          { store with objectTags := store.objectTags ++ freshRows store.objectTags rows } := by
        have kept : store.objectTags.map (updatedRow [] fun _ refs => refs) = store.objectTags :=
          (List.map_congr_left fun row _ => updatedRow_of_absent (by simp)).trans (List.map_id _)
        rw [written, kept]
      simp only [TagStatement.run, Checked.bind_eq_ok, Checked.pure_eq_ok, ← same] at ran
      obtain ⟨_, valid, rfl⟩ := ran
      exact coherent.write distinct fresh valid (fun row member => List.mem_map_of_mem member)
        (by simp) (fun _ there => there) (by simp)
  | appendTags rows =>
      obtain ⟨distinct, fresh, subset⟩ := freshRows_spec store.objectTags rows
      simp only [TagStatement.run, Checked.bind_eq_ok, Checked.ensure_eq_ok,
        Checked.pure_eq_ok] at ran
      obtain ⟨_, _, _, valid, rfl⟩ := ran
      refine coherent.write distinct fresh valid
        (fun row member => List.mem_map_of_mem (subset member)) (fun row _ touched => ?_)
        (List.subset_append_left _ _) fun row _ touched => List.mem_append_right _ touched
      obtain ⟨other, inside, same⟩ := List.mem_map.mp touched
      exact same ▸ List.mem_map_of_mem (List.mem_of_mem_filter inside)
  | updateTags rows =>
      have same : store.written rows (fun _ refs => refs) [] =
          { store with objectTags := store.objectTags.map (updatedRow rows fun _ refs => refs) } := by
        simp [written]
      simp only [TagStatement.run, Checked.bind_eq_ok, Checked.pure_eq_ok, ← same] at ran
      obtain ⟨_, valid, rfl⟩ := ran
      have picked : ∀ row ∈ store.objectTags, row.1 ∈ rows.map Prod.fst →
          row.1 ∈ (store.objectTags.filter fun row => row.1 ∈ rows.map Prod.fst).map Prod.fst :=
        fun row member touched => List.mem_map_of_mem
          (List.mem_filter.mpr ⟨member, by simpa using touched⟩)
      exact coherent.write .nil (by simp) valid (by simp) picked (by simp [insertedIds]) picked
  | deleteTags keys =>
      cases ran
      exact coherent.deleteTags keys
  | truncateTags =>
      cases ran
      refine ⟨coherent.names, coherent.values, .nil, by simp, by simp, fun object member => ?_⟩
      obtain ⟨before, _, rfl⟩ := List.mem_map.mp member
      rfl

/-- The tables after statements, of which those that fail change nothing. -/
def after (suite : HashSuite) (store : TagStore) (statements : List TagStatement) : TagStore :=
  statements.foldl (fun store statement => (statement.run suite store).toOption.getD store) store

theorem Coherent.after {suite : HashSuite} {store : TagStore} (coherent : store.Coherent)
    (statements : List TagStatement) : (store.after suite statements).Coherent := by
  induction statements generalizing store with
  | nil => exact coherent
  | cons statement statements induction =>
      rw [TagStore.after, List.foldl_cons]
      cases ran : statement.run suite store with
      | error message => exact induction coherent
      | ok next => exact induction (coherent.run ran)

end TagStore

/-- The program, the queries and the flag agree on which tags announce a bundle and in which format,
whatever statements wrote the tags; and the tags of an object are those that were packed for it. -/
theorem bundle_classification_agrees (suite : HashSuite) :
    (∀ tags format, BundleFormat.fromPairs tags = .ok format ↔
      bundleCandidate tags = some (decide (format = .json))) ∧
    (∀ tags format, BundleFormat.fromPairs tags = .ok format ↔
      parentConflict tags (decide (format = .json)) = false) ∧
    ∀ statements, let store := TagStore.empty.after suite statements
      (∀ object ∈ store.objects, object.isBundle = true ↔
        ∃ format, BundleFormat.fromPairs (store.storedTags object.key) = .ok format) ∧
      ∀ key tags, packRefs store.names store.values tags = .ok (store.refsOf key) →
        store.storedTags key = tags := by
  refine ⟨fun tags format => ?_, fun tags format => ?_, fun statements => ?_⟩
  · rw [fromPairs_eq_ok, bundleCandidate_eq]
    by_cases one : announcesBinary tags ≠ announcesJson tags
    · rw [if_pos one]
      simp [one]
    · rw [if_neg one]
      simp [one]
  · rw [fromPairs_eq_ok, parentConflict_eq]
  · have coherent := @TagStore.Coherent.after suite _ TagStore.coherent_empty statements
    refine ⟨fun object member => ?_, fun key tags packed => ?_⟩
    · rw [coherent.flags object member, classified, decide_eq_true_eq]
      constructor
      · intro one
        cases json : announcesJson
            ((TagStore.empty.after suite statements).storedTags object.key) with
        | true => exact ⟨.json, fromPairs_eq_ok.mpr ⟨one, by simp [json]⟩⟩
        | false => exact ⟨.binary, fromPairs_eq_ok.mpr ⟨one, by simp [json]⟩⟩
      · rintro ⟨format, accepted⟩
        exact (fromPairs_eq_ok.mp accepted).1
    · have wide : (2 : Nat) ^ 63 < 2 ^ 64 := by decide
      rw [TagStore.storedTags, TagStore.readObjectTags_eq coherent.rows]
      exact join_packRefs (fun row member => (coherent.names.2 row member).trans wide)
        (fun row member => (coherent.values.2 row member).trans wide) coherent.names.1
        coherent.values.1 packed

/-- An object whose tags are written one by one, in odd case, with a name that is not text. -/
def oddlyTagged : List TagStatement :=
  [.insertName 1 (utf8 "BuNdLe-FoRmAt"), .insertValue 1 (utf8 "json"), .insertObject 7 false,
    .insertTags [(7, bigEndian 8 1 ++ bigEndian 8 1)], .insertName 2 [0, 92, 255],
    .insertName 3 (utf8 "bundle-version"), .insertValue 2 (utf8 "1.0.0"),
    .appendTags [(7, bigEndian 8 2 ++ bigEndian 8 1)],
    .appendTags [(7, bigEndian 8 3 ++ bigEndian 8 2)], .completeObject 7]

def oddTags : List (Bytes × Bytes) :=
  [(utf8 "BuNdLe-FoRmAt", utf8 "json"), ([0, 92, 255], utf8 "json"),
    (utf8 "bundle-version", utf8 "1.0.0")]

theorem bundle_classification_agrees_sample :
    BundleFormat.fromPairs oddTags = .ok .json ∧ bundleCandidate oddTags = some true ∧
    parentConflict oddTags true = false ∧
    (TagStore.empty.after sha2Suite oddlyTagged).storedTags 7 = oddTags ∧
    ∀ object ∈ (TagStore.empty.after sha2Suite oddlyTagged).objects, object.isBundle = true ↔
      ∃ format, BundleFormat.fromPairs
        ((TagStore.empty.after sha2Suite oddlyTagged).storedTags object.key) = .ok format := by
  have agrees := bundle_classification_agrees sha2Suite
  have json : BundleFormat.fromPairs oddTags = .ok .json := by decide
  exact ⟨json, (agrees.1 oddTags .json).mp json, (agrees.2.1 oddTags .json).mp json,
    (agrees.2.2 oddlyTagged).2 7 oddTags (by decide), (agrees.2.2 oddlyTagged).1⟩

end ArIoGateway
