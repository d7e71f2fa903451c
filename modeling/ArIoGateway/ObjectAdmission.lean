import ArIoGateway.ObjectStore

/-!
# Admission of immutable objects

A batch is written exactly when it agrees with itself and with what is stored.  Afterwards the rows
and the tags of its objects are the incoming ones, and writing the batch again changes nothing.
-/

namespace ArIoGateway

open Octets

variable {ν : Type}

theorem packRefs_of_prefix {names values names' values' : Dictionary} (moreNames : names <+: names')
    (moreValues : values <+: values') {tags : List (Bytes × Bytes)} {refs : Bytes}
    (packed : packRefs names values tags = .ok refs) : packRefs names' values' tags = .ok refs := by
  induction tags generalizing refs with
  | nil => exact packed
  | cons tag tags induction =>
      obtain ⟨name, value⟩ := tag
      simp only [packRefs, Checked.bind_eq_ok, Checked.context_eq_ok, Checked.pure_eq_ok]
        at packed ⊢
      obtain ⟨nameKey, nameFound, valueKey, valueFound, rest, behind, same⟩ := packed
      exact ⟨nameKey, keyOf_of_prefix moreNames nameFound, valueKey,
        keyOf_of_prefix moreValues valueFound, rest, induction behind, same⟩

theorem packRefs_eq_nil {names values : Dictionary} {tags : List (Bytes × Bytes)} {refs : Bytes}
    (packed : packRefs names values tags = .ok refs) : refs = [] ↔ tags = [] := by
  cases tags with
  | nil =>
      obtain rfl := Except.ok.inj packed
      simp
  | cons tag tags =>
      obtain ⟨name, value⟩ := tag
      simp only [packRefs, Checked.bind_eq_ok, Checked.pure_eq_ok] at packed
      obtain ⟨nameKey, -, valueKey, -, rest, -, rfl⟩ := packed
      constructor
      · intro empty
        have long := congrArg List.length empty
        simp at long
      · intro empty
        contradiction

/-- Keys that the dictionaries have for all bytes of some tags. -/
def Keyed (keys : Dictionary × Dictionary) (names values : Dictionary)
    (tags : List (Bytes × Bytes)) : Prop :=
  ∀ tag ∈ tags, (∃ key, keyOf keys.1 tag.1 = some key ∧ keyOf names tag.1 = some key) ∧
    ∃ key, keyOf keys.2 tag.2 = some key ∧ keyOf values tag.2 = some key

theorem Keyed.exists_packRefs {keys : Dictionary × Dictionary} {names values : Dictionary}
    {tags : List (Bytes × Bytes)} (keyed : Keyed keys names values tags) :
    ∃ refs, packRefs keys.1 keys.2 tags = .ok refs ∧ packRefs names values tags = .ok refs := by
  induction tags with
  | nil => exact ⟨[], rfl, rfl⟩
  | cons tag tags induction =>
      obtain ⟨name, value⟩ := tag
      obtain ⟨⟨⟨nameKey, nameFound, nameStored⟩, valueKey, valueFound, valueStored⟩, behind⟩ :=
        List.forall_mem_cons.mp keyed
      obtain ⟨refs, packed, stored⟩ := induction behind
      simp only at nameFound nameStored valueFound valueStored
      refine ⟨bigEndian 8 nameKey ++ bigEndian 8 valueKey ++ refs, ?_, ?_⟩
      · rw [packRefs, nameFound, valueFound, packed]
        rfl
      · rw [packRefs, nameStored, valueStored, stored]
        rfl

/-- The references of packed tags are in the dictionaries. -/
theorem mem_of_decodeTagRefs {names values : TagDictionary} (nameSound : names.Sound)
    (valueSound : values.Sound) {tags : List (Bytes × Bytes)} {refs : Bytes}
    (packed : packRefs names.rows values.rows tags = .ok refs) :
    ∀ ref ∈ decodeTagRefs refs,
      ref.1 ∈ names.rows.map Prod.fst ∧ ref.2 ∈ values.rows.map Prod.fst := by
  have decoded := decodeTagRefs_packRefs
    (fun row member => by have := nameSound.below row member; have := nameSound.bound; omega)
    (fun row member => by have := valueSound.below row member; have := valueSound.bound; omega)
    packed
  intro ref member
  obtain ⟨tag, -, nameFound, valueFound⟩ := Batches.exists_of_mem_right decoded member
  exact ⟨List.mem_map_of_mem ((keyOf_eq_some nameSound.values).mp nameFound),
    List.mem_map_of_mem ((keyOf_eq_some valueSound.values).mp valueFound)⟩

theorem join_of_sound {names values : TagDictionary} (nameSound : names.Sound)
    (valueSound : values.Sound) {tags : List (Bytes × Bytes)} {refs : Bytes}
    (packed : packRefs names.rows values.rows tags = .ok refs) :
    TagStore.join names.rows values.rows (decodeTagRefs refs) = tags :=
  join_packRefs
    (fun row member => by have := nameSound.below row member; have := nameSound.bound; omega)
    (fun row member => by have := valueSound.below row member; have := valueSound.bound; omega)
    nameSound.keys valueSound.keys packed

theorem tagRefs_of_mem {rows : List (Nat × Bytes)} (distinct : (rows.map Prod.fst).Nodup)
    {row : Nat × Bytes} (member : row ∈ rows) : tagRefs rows row.1 = row.2 := by
  rw [tagRefs]
  cases found : rows.find? fun other => other.1 = row.1 with
  | none =>
      have absent := List.find?_eq_none.mp found row member
      simp at absent
  | some other =>
      have same : other.1 = row.1 := by simpa using List.find?_some found
      rw [List.inj_on_of_nodup_map distinct (List.mem_of_find?_eq_some found) member same]
      rfl

theorem tagRefs_of_not_mem {rows : List (Nat × Bytes)} {key : Nat}
    (absent : key ∉ rows.map Prod.fst) : tagRefs rows key = [] := by
  have none : rows.find? (fun row => row.1 = key) = none := List.find?_eq_none.mpr
    fun row member => by
      simpa using fun same : row.1 = key => absent (same ▸ List.mem_map_of_mem member)
  rw [tagRefs, none]
  rfl

theorem tagRefs_append {rows more : List (Nat × Bytes)} {key : Nat}
    (absent : key ∉ more.map Prod.fst) : tagRefs (rows ++ more) key = tagRefs rows key := by
  have none : more.find? (fun row => row.1 = key) = none := List.find?_eq_none.mpr
    fun row member => by
      simpa using fun same : row.1 = key => absent (same ▸ List.mem_map_of_mem member)
  rw [tagRefs, tagRefs, List.find?_append, none, Option.or_none]

theorem tagRefs_append_right {rows more : List (Nat × Bytes)} {key : Nat}
    (absent : key ∉ rows.map Prod.fst) : tagRefs (rows ++ more) key = tagRefs more key := by
  have none : rows.find? (fun row => row.1 = key) = none := List.find?_eq_none.mpr
    fun row member => by
      simpa using fun same : row.1 = key => absent (same ▸ List.mem_map_of_mem member)
  rw [tagRefs, tagRefs, List.find?_append, none, Option.none_or]

theorem ObjectStore.storedTags_eq {store : ObjectStore ν}
    (rows : (store.objectTags.map Prod.fst).Nodup) (key : Nat) :
    store.storedTags key = TagStore.join store.names.rows store.values.rows
      (decodeTagRefs (tagRefs store.objectTags key)) := by
  rw [storedTags, TagStore.storedTags, TagStore.readObjectTags_eq rows]
  rfl

/-- Stored references are those of the stored tags. -/
theorem ObjectStore.Sound.packRefs_storedTags {store : ObjectStore ν} (sound : store.Sound)
    (key : Nat) : packRefs store.names.rows store.values.rows (store.storedTags key) =
      .ok (tagRefs store.objectTags key) := by
  rw [storedTags_eq sound.rows]
  by_cases there : key ∈ store.objectTags.map Prod.fst
  · obtain ⟨row, member, rfl⟩ := List.mem_map.mp there
    obtain ⟨-, tags, -, packed⟩ := sound.packed row member
    rw [tagRefs_of_mem sound.rows member, join_of_sound sound.names sound.values packed]
    exact packed
  · rw [tagRefs_of_not_mem there]
    rfl

/-- The row of references that an object brings, when it was completed and has tags. -/
def tagRow (store : ObjectStore ν) (completed : List Nat) (pair : ObjectMetadata × Nat) :
    Option (Nat × Bytes) :=
  match packRefs store.names.rows store.values.rows pair.1.tags with
  | .ok refs => if pair.2 ∈ completed ∧ refs ≠ [] then some (pair.2, refs) else none
  | .error _ => none

/-- The table with the rows that objects bring. -/
def withTags (store : ObjectStore ν) (completed : List Nat) (pairs : List (ObjectMetadata × Nat)) :
    ObjectStore ν :=
  { store with objectTags := store.objectTags ++ pairs.filterMap (tagRow store completed) }

/-- The tags of an object that was complete before are those that are stored. -/
def TagsAgree (store : ObjectStore ν) (completed : List Nat) (pair : ObjectMetadata × Nat) : Prop :=
  pair.2 ∉ completed → packRefs store.names.rows store.values.rows pair.1.tags =
    .ok (tagRefs store.objectTags pair.2)

theorem tagRow_fst {store : ObjectStore ν} {completed : List Nat} {pair : ObjectMetadata × Nat}
    {row : Nat × Bytes} (brings : tagRow store completed pair = some row) :
    row.1 = pair.2 ∧ pair.2 ∈ completed ∧ row.2 ≠ [] ∧
      packRefs store.names.rows store.values.rows pair.1.tags = .ok row.2 := by
  rw [tagRow] at brings
  split at brings
  · next refs packed =>
      split at brings
      · next both =>
          obtain rfl := Option.some.inj brings
          exact ⟨rfl, both.1, both.2, packed⟩
      · contradiction
  · contradiction

theorem mem_keys_filterMap {store : ObjectStore ν} {completed : List Nat}
    {pairs : List (ObjectMetadata × Nat)} {key : Nat}
    (member : key ∈ (pairs.filterMap (tagRow store completed)).map Prod.fst) :
    key ∈ pairs.map Prod.snd ∧ key ∈ completed := by
  obtain ⟨row, inside, rfl⟩ := List.mem_map.mp member
  obtain ⟨pair, there, brings⟩ := List.mem_filterMap.mp inside
  obtain ⟨same, done, -, -⟩ := tagRow_fst brings
  rw [same]
  exact ⟨List.mem_map_of_mem there, done⟩

theorem nodup_filterMap {store : ObjectStore ν} {completed : List Nat}
    {pairs : List (ObjectMetadata × Nat)} (distinct : (pairs.map Prod.snd).Nodup) :
    ((pairs.filterMap (tagRow store completed)).map Prod.fst).Nodup := by
  induction pairs with
  | nil => exact List.nodup_nil
  | cons pair pairs induction =>
      obtain ⟨absent, behind⟩ := List.nodup_cons.mp distinct
      rw [List.filterMap_cons]
      split
      · exact induction behind
      · next row brings =>
          obtain ⟨same, -⟩ := tagRow_fst brings
          refine List.nodup_cons.mpr ⟨fun member => absent ?_, induction behind⟩
          rw [← same]
          exact (mem_keys_filterMap member).1

theorem freshRows_eq {stored rows : List (Nat × Bytes)} (distinct : (rows.map Prod.fst).Nodup)
    (fresh : ∀ row ∈ rows, row.1 ∉ stored.map Prod.fst) : freshRows stored rows = rows := by
  induction rows generalizing stored with
  | nil => rfl
  | cons row rows induction =>
      obtain ⟨absent, behind⟩ := List.nodup_cons.mp distinct
      obtain ⟨first, others⟩ := List.forall_mem_cons.mp fresh
      rw [freshRows, if_neg first, induction behind]
      intro other member there
      rw [List.map_append, List.mem_append] at there
      rcases there with old | new
      · exact others other member old
      · rw [List.map_singleton, List.mem_singleton] at new
        exact absent (new ▸ List.mem_map_of_mem member)

section Batch

variable {store : ObjectStore ν} {keys : Dictionary × Dictionary} {completed objectKeys : List Nat}
  {objects : List ObjectMetadata} {refs : List Bytes}

/-- The references of objects, one by one. -/
abbrev PackedBy (store : ObjectStore ν) (object : ObjectMetadata) (refs : Bytes) : Prop :=
  packRefs store.names.rows store.values.rows object.tags = .ok refs

theorem exists_mapM_packRefs
    (keyed : ∀ object ∈ objects, Keyed keys store.names.rows store.values.rows object.tags) :
    ∃ refs, objects.mapM (fun object => packRefs keys.1 keys.2 object.tags) = .ok refs ∧
      List.Forall₂ (PackedBy store) objects refs := by
  induction objects with
  | nil => exact ⟨[], rfl, .nil⟩
  | cons object objects induction =>
      obtain ⟨first, behind⟩ := List.forall_mem_cons.mp keyed
      obtain ⟨packed, found, stored⟩ := first.exists_packRefs
      obtain ⟨others, made, all⟩ := induction behind
      refine ⟨packed :: others, ?_, .cons stored all⟩
      rw [List.mapM_cons, found, Checked.ok_bind, made, Checked.ok_bind]
      rfl

theorem filter_zip_refs (packed : List.Forall₂ (PackedBy store) objects refs) :
    ((objectKeys.zip refs).filter fun row => decide (row.1 ∈ completed ∧ row.2 ≠ [])) =
      (objects.zip objectKeys).filterMap (tagRow store completed) := by
  induction packed generalizing objectKeys with
  | nil => simp
  | @cons object bytes objects refs first _ induction =>
      cases objectKeys with
      | nil => rfl
      | cons key objectKeys =>
          have row : tagRow store completed (object, key) =
              if key ∈ completed ∧ bytes ≠ [] then some (key, bytes) else none := by
            rw [tagRow, first]
          rw [List.zip_cons_cons, List.zip_cons_cons, List.filterMap_cons, row,
            List.filter_cons, induction]
          by_cases brings : key ∈ completed ∧ bytes ≠ []
          · rw [if_pos brings, if_pos (decide_eq_true brings)]
          · rw [if_neg brings, if_neg (by simpa using brings)]

theorem mem_zip_refs (packed : List.Forall₂ (PackedBy store) objects refs) {key : Nat}
    {bytes : Bytes} : (key, bytes) ∈ objectKeys.zip refs ↔
      ∃ object, (object, key) ∈ objects.zip objectKeys ∧ PackedBy store object bytes := by
  induction packed generalizing objectKeys with
  | nil => simp
  | @cons object others objects refs first _ induction =>
      cases objectKeys with
      | nil => simp
      | cons next objectKeys =>
          rw [List.zip_cons_cons, List.zip_cons_cons, List.mem_cons, induction]
          constructor
          · rintro (same | ⟨found, member, holds⟩)
            · obtain ⟨rfl, rfl⟩ := Prod.mk.inj same
              exact ⟨object, List.mem_cons_self, first⟩
            · exact ⟨found, List.mem_cons_of_mem _ member, holds⟩
          · rintro ⟨found, member, holds⟩
            rcases List.mem_cons.mp member with same | later
            · obtain ⟨rfl, rfl⟩ := Prod.mk.inj same
              rw [PackedBy, first] at holds
              exact .inl (by rw [Except.ok.inj holds])
            · exact .inr ⟨found, later, holds⟩

/-- After the rows are in, an object has the references of its tags exactly when it was completed or
had them before. -/
theorem eq_tagRefs_iff (distinct : objectKeys.Nodup)
    (fresh : ∀ key ∈ objectKeys, key ∈ completed → key ∉ store.objectTags.map Prod.fst)
    {object : ObjectMetadata} {key : Nat} {bytes : Bytes}
    (member : (object, key) ∈ objects.zip objectKeys) (packed : PackedBy store object bytes)
    (same : objects.length = objectKeys.length) :
    bytes = tagRefs (withTags store completed (objects.zip objectKeys)).objectTags key ↔
      TagsAgree store completed (object, key) := by
  have keysOf : (objects.zip objectKeys).map Prod.snd = objectKeys :=
    List.map_snd_zip same.ge
  have there : key ∈ objectKeys := keysOf ▸ List.mem_map_of_mem member
  have apart : (((objects.zip objectKeys).filterMap (tagRow store completed)).map Prod.fst).Nodup :=
    nodup_filterMap (by rwa [keysOf])
  rw [withTags]
  by_cases done : key ∈ completed
  · have absent := fresh key there done
    have vacuous : TagsAgree store completed (object, key) := fun other => absurd done other
    refine iff_of_true ?_ vacuous
    simp only
    by_cases empty : bytes = []
    · have outside : key ∉ ((objects.zip objectKeys).filterMap (tagRow store completed)).map
          Prod.fst := by
        intro inside
        obtain ⟨row, found, rfl⟩ := List.mem_map.mp inside
        obtain ⟨pair, other, brings⟩ := List.mem_filterMap.mp found
        obtain ⟨equal, -, some, refs⟩ := tagRow_fst brings
        have unique : pair = (object, row.1) :=
          List.inj_on_of_nodup_map (by rwa [keysOf]) other member equal.symm
        rw [unique, packed] at refs
        exact some ((Except.ok.inj refs).symm.trans empty)
      rw [tagRefs_append outside, tagRefs_of_not_mem absent, empty]
    · have brings : tagRow store completed (object, key) = some (key, bytes) := by
        rw [tagRow, packed]
        exact if_pos ⟨done, empty⟩
      have inside : (key, bytes) ∈ (objects.zip objectKeys).filterMap (tagRow store completed) :=
        List.mem_filterMap.mpr ⟨(object, key), member, brings⟩
      rw [tagRefs_append_right absent]
      exact (tagRefs_of_mem apart inside).symm
  · have outside : key ∉ ((objects.zip objectKeys).filterMap (tagRow store completed)).map
        Prod.fst := fun inside => done (mem_keys_filterMap inside).2
    simp only
    rw [tagRefs_append outside, TagsAgree]
    constructor
    · rintro rfl _
      exact packed
    · intro agrees
      exact Except.ok.inj (packed.symm.trans (agrees done))

/-- One batch of tags is written exactly when the tags of the objects that were complete before
agree with those that are stored. -/
theorem writeTagBatch_eq_ok {after : ObjectStore ν} (names : store.names.Sound)
    (values : store.values.Sound) (same : objects.length = objectKeys.length)
    (distinct : objectKeys.Nodup)
    (fresh : ∀ key ∈ objectKeys, key ∈ completed → key ∉ store.objectTags.map Prod.fst)
    (keyed : ∀ object ∈ objects, Keyed keys store.names.rows store.values.rows object.tags) :
    writeTagBatch keys completed store (objects, objectKeys) = .ok after ↔
      (∀ pair ∈ objects.zip objectKeys, TagsAgree store completed pair) ∧
        after = withTags store completed (objects.zip objectKeys) := by
  obtain ⟨refs, made, packed⟩ := exists_mapM_packRefs keyed
  have keysOf : (objects.zip objectKeys).map Prod.snd = objectKeys := List.map_snd_zip same.ge
  have inserted : freshRows store.objectTags ((objectKeys.zip refs).filter
      fun row => decide (row.1 ∈ completed ∧ row.2 ≠ [])) =
      (objects.zip objectKeys).filterMap (tagRow store completed) := by
    rw [filter_zip_refs packed]
    refine freshRows_eq (nodup_filterMap (by rwa [keysOf])) fun row member => ?_
    obtain ⟨inside, done⟩ := mem_keys_filterMap (List.mem_map_of_mem member)
    exact fresh row.1 (keysOf ▸ inside) done
  have valid : ∀ row ∈ (objects.zip objectKeys).filterMap (tagRow store completed),
      ∀ ref ∈ decodeTagRefs row.2,
        ref.1 ∈ store.names.rows.map Prod.fst ∧ ref.2 ∈ store.values.rows.map Prod.fst := by
    intro row member
    obtain ⟨pair, -, brings⟩ := List.mem_filterMap.mp member
    obtain ⟨-, -, -, refs⟩ := tagRow_fst brings
    exact mem_of_decodeTagRefs names values refs
  have agree : (∀ row ∈ objectKeys.zip refs,
      row.2 = tagRefs (withTags store completed (objects.zip objectKeys)).objectTags row.1) ↔
      ∀ pair ∈ objects.zip objectKeys, TagsAgree store completed pair := by
    constructor
    · intro holds pair member
      obtain ⟨bytes, -, packedBy⟩ := Batches.exists_of_mem_left packed (List.of_mem_zip member).1
      exact (eq_tagRefs_iff distinct fresh member packedBy same).mp
        (holds (pair.2, bytes) ((mem_zip_refs packed).mpr ⟨pair.1, member, packedBy⟩))
    · intro holds row member
      obtain ⟨object, inside, packedBy⟩ := (mem_zip_refs packed).mp member
      exact (eq_tagRefs_iff distinct fresh inside packedBy same).mpr (holds _ inside)
  rw [writeTagBatch, made, Checked.ok_bind]
  simp only [inserted]
  rw [Checked.ensure_of valid, Checked.ok_bind, Checked.bind_eq_ok]
  constructor
  · rintro ⟨⟨⟩, holds, result⟩
    exact ⟨agree.mp (Checked.ensure_eq_ok.mp holds), (Checked.pure_eq_ok.mp result).symm⟩
  · rintro ⟨holds, rfl⟩
    exact ⟨(), Checked.ensure_of (agree.mpr holds), rfl⟩

end Batch

/-- Keys of the objects that are written after others are not among the rows of these. -/
theorem TagsAgree.withTags_iff {store : ObjectStore ν} {completed : List Nat}
    {pairs : List (ObjectMetadata × Nat)} {pair : ObjectMetadata × Nat}
    (apart : pair.2 ∉ pairs.map Prod.snd) :
    TagsAgree (withTags store completed pairs) completed pair ↔ TagsAgree store completed pair := by
  have outside : pair.2 ∉ (pairs.filterMap (tagRow store completed)).map Prod.fst :=
    fun inside => apart (mem_keys_filterMap inside).1
  rw [TagsAgree, TagsAgree, withTags]
  simp only
  rw [tagRefs_append outside]

theorem withTags_append (store : ObjectStore ν) (completed : List Nat)
    (first second : List (ObjectMetadata × Nat)) :
    withTags (withTags store completed first) completed second =
      withTags store completed (first ++ second) := by
  have rows : withTags (withTags store completed first) completed second =
      { store with objectTags := store.objectTags ++ first.filterMap (tagRow store completed) ++
          second.filterMap (tagRow store completed) } := rfl
  rw [rows, withTags, List.filterMap_append, List.append_assoc]

/-- All batches of tags are written exactly when the tags of the objects that were complete before
agree with those that are stored. -/
theorem foldlM_writeTagBatch {store after : ObjectStore ν} {keys : Dictionary × Dictionary}
    {completed : List Nat} {batches : List (List ObjectMetadata × List Nat)}
    (names : store.names.Sound) (values : store.values.Sound)
    (same : ∀ batch ∈ batches, batch.1.length = batch.2.length)
    (distinct : (batches.flatMap Prod.snd).Nodup)
    (fresh : ∀ key ∈ batches.flatMap Prod.snd, key ∈ completed →
      key ∉ store.objectTags.map Prod.fst)
    (keyed : ∀ batch ∈ batches, ∀ object ∈ batch.1,
      Keyed keys store.names.rows store.values.rows object.tags) :
    batches.foldlM (writeTagBatch keys completed) store = .ok after ↔
      (∀ pair ∈ batches.flatMap fun batch => batch.1.zip batch.2,
        TagsAgree store completed pair) ∧
        after = withTags store completed (batches.flatMap fun batch => batch.1.zip batch.2) := by
  induction batches generalizing store with
  | nil =>
      constructor
      · intro done
        obtain rfl := Except.ok.inj done
        refine ⟨by simp, ?_⟩
        simp [withTags]
      · rintro ⟨-, rfl⟩
        simp only [List.foldlM_nil, withTags, List.flatMap_nil, List.filterMap_nil,
          List.append_nil]
        rfl
  | cons batch batches induction =>
      obtain ⟨objects, objectKeys⟩ := batch
      obtain ⟨sameFirst, sameRest⟩ := List.forall_mem_cons.mp same
      obtain ⟨keyedFirst, keyedRest⟩ := List.forall_mem_cons.mp keyed
      rw [List.flatMap_cons] at distinct fresh
      obtain ⟨distinctFirst, distinctRest, apart⟩ := List.nodup_append.mp distinct
      have freshFirst : ∀ key ∈ objectKeys, key ∈ completed →
          key ∉ store.objectTags.map Prod.fst :=
        fun key member => fresh key (List.mem_append_left _ member)
      have keysOf : (objects.zip objectKeys).map Prod.snd = objectKeys :=
        List.map_snd_zip sameFirst.ge
      have freshRest : ∀ key ∈ batches.flatMap Prod.snd, key ∈ completed →
          key ∉ (withTags store completed (objects.zip objectKeys)).objectTags.map Prod.fst := by
        intro key member done there
        rw [withTags, List.map_append, List.mem_append] at there
        rcases there with old | new
        · exact fresh key (List.mem_append_right _ member) done old
        · exact apart key (keysOf ▸ (mem_keys_filterMap new).1) key member rfl
      have separate : ∀ pair ∈ batches.flatMap fun batch => batch.1.zip batch.2,
          pair.2 ∉ (objects.zip objectKeys).map Prod.snd := by
        intro pair member there
        obtain ⟨batch, inside, found⟩ := List.mem_flatMap.mp member
        exact apart pair.2 (keysOf ▸ there) pair.2
          (List.mem_flatMap.mpr ⟨batch, inside, (List.of_mem_zip found).2⟩) rfl
      have behind := @induction (withTags store completed (objects.zip objectKeys)) names values
        sameRest distinctRest freshRest keyedRest
      rw [List.foldlM_cons, Checked.bind_eq_ok, List.flatMap_cons]
      constructor
      · rintro ⟨middle, written, rest⟩
        obtain ⟨agreeFirst, rfl⟩ :=
          (writeTagBatch_eq_ok names values sameFirst distinctFirst freshFirst keyedFirst).mp
            written
        obtain ⟨agreeRest, rfl⟩ := behind.mp rest
        refine ⟨List.forall_mem_append.mpr ⟨agreeFirst, fun pair member => ?_⟩,
          withTags_append _ _ _ _⟩
        exact (TagsAgree.withTags_iff (separate pair member)).mp (agreeRest pair member)
      · rintro ⟨agree, rfl⟩
        obtain ⟨agreeFirst, agreeRest⟩ := List.forall_mem_append.mp agree
        refine ⟨_, (writeTagBatch_eq_ok names values sameFirst distinctFirst freshFirst
          keyedFirst).mpr ⟨agreeFirst, rfl⟩, ?_⟩
        refine behind.mpr ⟨fun pair member => ?_, (withTags_append _ _ _ _).symm⟩
        exact (TagsAgree.withTags_iff (separate pair member)).mpr (agreeRest pair member)

section Rows

variable {store : ObjectStore ν} {batch : List (Incoming ν)} {now : Nat}

theorem completes_eq_true {row : StoredObject ν} {incoming : Incoming ν} :
    completes row incoming = true ↔
      row.id = incoming.1.id ∧ row.metadataComplete = false ∧ row.kind = incoming.1.kind := by
  rw [completes, decide_eq_true_eq]

/-- A row stays, or the object with its ID completes it. -/
theorem completeRow_cases (now : Nat) (batch : List (Incoming ν)) (row : StoredObject ν) :
    completeRow now batch row = row ∧ batch.any (completes row) = false ∨
      ∃ incoming ∈ batch, completes row incoming = true ∧
        completeRow now batch row =
          { row with metadataComplete := true, columns := incoming.2, indexedAt := some now } := by
  rw [completeRow]
  cases found : batch.find? (completes row) with
  | none =>
      refine .inl ⟨rfl, ?_⟩
      rw [List.any_eq_false]
      exact List.find?_eq_none.mp found
  | some incoming =>
      exact .inr ⟨incoming, List.mem_of_find?_eq_some found, List.find?_some found, rfl⟩

@[simp] theorem completeRow_key (row : StoredObject ν) :
    (completeRow now batch row).key = row.key := by
  rcases completeRow_cases now batch row with ⟨same, -⟩ | ⟨incoming, -, -, same⟩ <;> rw [same]

@[simp] theorem completeRow_id (row : StoredObject ν) :
    (completeRow now batch row).id = row.id := by
  rcases completeRow_cases now batch row with ⟨same, -⟩ | ⟨incoming, -, -, same⟩ <;> rw [same]

@[simp] theorem completeRow_kind (row : StoredObject ν) :
    (completeRow now batch row).kind = row.kind := by
  rcases completeRow_cases now batch row with ⟨same, -⟩ | ⟨incoming, -, -, same⟩ <;> rw [same]

theorem completeRow_of_complete {row : StoredObject ν} (complete : row.metadataComplete = true) :
    completeRow now batch row = row := by
  rcases completeRow_cases now batch row with ⟨same, -⟩ | ⟨incoming, -, completed, -⟩
  · exact same
  · rw [(completes_eq_true.mp completed).2.1] at complete
    contradiction

theorem isMissing_eq_true {incoming : Incoming ν} :
    isMissing store incoming = true ↔ ∀ row ∈ store.objects, row.id ≠ incoming.1.id := by
  rw [isMissing, List.all_eq_true]
  simp only [decide_eq_true_eq]

theorem map_key_insertedRows :
    (insertedRows now batch store).map StoredObject.key =
      List.range' store.next (missingObjects batch store).length := by
  rw [insertedRows, List.map_map]
  exact List.map_fst_zip (by rw [List.length_range'])

theorem map_id_insertedRows :
    (insertedRows now batch store).map StoredObject.id =
      (missingObjects batch store).map fun incoming => incoming.1.id := by
  have rows : (insertedRows now batch store).map StoredObject.id =
      (((List.range' store.next (missingObjects batch store).length).zip
        (missingObjects batch store)).map Prod.snd).map fun incoming => incoming.1.id := by
    rw [insertedRows, List.map_map, List.map_map]
    rfl
  rw [rows, List.map_snd_zip (by rw [List.length_range'])]

theorem mem_insertedRows {row : StoredObject ν} (member : row ∈ insertedRows now batch store) :
    store.next ≤ row.key ∧ row.key < store.next + (missingObjects batch store).length ∧
      ∃ incoming ∈ batch, isMissing store incoming = true ∧ row = newRow now row.key incoming := by
  have key : row.key ∈ List.range' store.next (missingObjects batch store).length := by
    rw [← map_key_insertedRows]
    exact List.mem_map_of_mem member
  obtain ⟨pair, inside, rfl⟩ := List.mem_map.mp member
  obtain ⟨there, missing⟩ := List.mem_filter.mp (List.of_mem_zip inside).2
  obtain ⟨low, high⟩ := List.mem_range'_1.mp key
  exact ⟨low, high, pair.2, there, missing, rfl⟩

theorem exists_insertedRow {incoming : Incoming ν} (member : incoming ∈ batch)
    (missing : isMissing store incoming = true) :
    ∃ row ∈ insertedRows now batch store, Matches row incoming := by
  have there : incoming ∈ missingObjects batch store := List.mem_filter.mpr ⟨member, missing⟩
  have snd : incoming ∈ ((List.range' store.next (missingObjects batch store).length).zip
      (missingObjects batch store)).map Prod.snd := by
    rwa [List.map_snd_zip (by rw [List.length_range'])]
  obtain ⟨pair, inside, rfl⟩ := List.mem_map.mp snd
  exact ⟨newRow now pair.1 pair.2, List.mem_map_of_mem inside, rfl, rfl, rfl, rfl⟩

variable (sound : store.Sound) (distinct : (batch.map fun incoming => incoming.1.id).Nodup)

include sound distinct

theorem nodup_ids_withRows : ((withRows now batch store).objects.map StoredObject.id).Nodup := by
  have ids : (store.objects.map (completeRow now batch)).map StoredObject.id =
      store.objects.map StoredObject.id := by
    rw [List.map_map]
    exact List.map_congr_left fun row _ => completeRow_id row
  rw [withRows, List.map_append, ids, map_id_insertedRows]
  refine List.nodup_append.mpr ⟨sound.ids, ?_, ?_⟩
  · exact distinct.sublist (List.filter_sublist.map _)
  · rintro id old _ new rfl
    obtain ⟨row, member, rfl⟩ := List.mem_map.mp old
    obtain ⟨incoming, there, same⟩ := List.mem_map.mp new
    exact isMissing_eq_true.mp (List.mem_filter.mp there).2 row member same.symm

omit distinct in
theorem nodup_keys_withRows : ((withRows now batch store).objects.map StoredObject.key).Nodup := by
  have keys : (store.objects.map (completeRow now batch)).map StoredObject.key =
      store.objects.map StoredObject.key := by
    rw [List.map_map]
    exact List.map_congr_left fun row _ => completeRow_key row
  rw [withRows, List.map_append, keys, map_key_insertedRows]
  refine List.nodup_append.mpr ⟨sound.keys, List.nodup_range', ?_⟩
  rintro key old _ new rfl
  obtain ⟨row, member, rfl⟩ := List.mem_map.mp old
  have small := sound.below row member
  have large := (List.mem_range'_1.mp new).1
  omega

/-- An incoming object has a row of its own exactly when it does not contradict one. -/
theorem exists_matches_iff {incoming : Incoming ν} (member : incoming ∈ batch) :
    (∃ row ∈ (withRows now batch store).objects, Matches row incoming) ↔
      ∀ row ∈ store.objects, row.id = incoming.1.id →
        row.kind = incoming.1.kind ∧ (row.metadataComplete = true → row.columns = incoming.2) := by
  constructor
  · rintro ⟨found, there, sameId, complete, sameKind, sameColumns⟩ row inside equal
    rcases List.mem_append.mp there with old | new
    · obtain ⟨before, beforeMember, rfl⟩ := List.mem_map.mp old
      rw [completeRow_id] at sameId
      rw [completeRow_kind] at sameKind
      obtain rfl : row = before :=
        List.inj_on_of_nodup_map sound.ids inside beforeMember (equal.trans sameId.symm)
      refine ⟨sameKind, fun done => ?_⟩
      rwa [completeRow_of_complete done] at sameColumns
    · obtain ⟨-, -, other, otherMember, missing, made⟩ := mem_insertedRows new
      rw [made] at sameId
      exact absurd (equal.trans sameId.symm) (isMissing_eq_true.mp missing row inside)
  · intro agrees
    cases missing : isMissing store incoming with
    | true =>
        obtain ⟨row, inside, matched⟩ := exists_insertedRow member missing
        exact ⟨row, List.mem_append_right _ inside, matched⟩
    | false =>
        have some : ∃ row ∈ store.objects, row.id = incoming.1.id := by
          by_contra none
          have absent : isMissing store incoming = true := isMissing_eq_true.mpr
            fun row inside same => none ⟨row, inside, same⟩
          rw [absent] at missing
          contradiction
        obtain ⟨row, inside, same⟩ := some
        obtain ⟨sameKind, sameColumns⟩ := agrees row inside same
        refine ⟨completeRow now batch row, List.mem_append_left _ (List.mem_map_of_mem inside), ?_⟩
        cases complete : row.metadataComplete with
        | true =>
            rw [completeRow_of_complete complete]
            exact ⟨same, complete, sameKind, sameColumns complete⟩
        | false =>
            have completed : completes row incoming = true :=
              completes_eq_true.mpr ⟨same, complete, sameKind⟩
            rcases completeRow_cases now batch row with ⟨-, none⟩ | ⟨other, there, found, made⟩
            · rw [List.any_eq_false] at none
              exact absurd completed (none incoming member)
            · have equal : other = incoming := List.inj_on_of_nodup_map distinct there member
                ((completes_eq_true.mp found).1.symm.trans same)
              subst equal
              rw [made]
              exact ⟨same, rfl, sameKind, rfl⟩

end Rows

section Keys

variable [DecidableEq ν] {store : ObjectStore ν} {batch : List (Incoming ν)}

/-- An object matches the one row with its ID, or none. -/
theorem filter_matches_cases (ids : (store.objects.map StoredObject.id).Nodup)
    (incoming : Incoming ν) :
    (∃ row ∈ store.objects, Matches row incoming ∧
        (store.objects.filter fun row => Matches row incoming) = [row]) ∨
      (¬∃ row ∈ store.objects, Matches row incoming) ∧
        (store.objects.filter fun row => Matches row incoming) = [] := by
  by_cases some : ∃ row ∈ store.objects, Matches row incoming
  · obtain ⟨row, inside, matched⟩ := some
    refine .inl ⟨row, inside, matched, ?_⟩
    have member : row ∈ store.objects.filter fun row => Matches row incoming :=
      List.mem_filter.mpr ⟨inside, decide_eq_true matched⟩
    have distinct : (store.objects.filter fun row => Matches row incoming).Nodup :=
      (List.Nodup.of_map _ ids).filter _
    refine List.perm_singleton.mp ((List.perm_ext_iff_of_nodup distinct
      (List.nodup_singleton row)).mpr fun other => ?_)
    rw [List.mem_singleton]
    constructor
    · intro found
      obtain ⟨there, same⟩ := List.mem_filter.mp found
      exact List.inj_on_of_nodup_map ids there inside
        ((of_decide_eq_true same).1.trans matched.1.symm)
    · rintro rfl
      exact member
  · refine .inr ⟨some, List.filter_eq_nil_iff.mpr fun row inside matched => ?_⟩
    exact some ⟨row, inside, of_decide_eq_true matched⟩

/-- There are as many keys as objects exactly when every object matches a row; the keys are then
those of the rows, in order. -/
theorem matchRows_spec (ids : (store.objects.map StoredObject.id).Nodup) :
    (matchRows batch store).length ≤ batch.length ∧
      ((matchRows batch store).length = batch.length ↔
        ∀ incoming ∈ batch, ∃ row ∈ store.objects, Matches row incoming) ∧
      ((matchRows batch store).length = batch.length →
        List.Forall₂ (fun incoming key => ∃ row ∈ store.objects, row.key = key ∧
          Matches row incoming) batch (matchRows batch store)) := by
  induction batch with
  | nil => exact ⟨le_rfl, by simp [matchRows], fun _ => .nil⟩
  | cons incoming batch induction =>
      obtain ⟨shorter, all, aligned⟩ := induction
      have step : matchRows (incoming :: batch) store =
          (store.objects.filter fun row => Matches row incoming).map StoredObject.key ++
            matchRows batch store := List.flatMap_cons
      rw [step]
      rcases filter_matches_cases ids incoming with
        ⟨row, inside, matched, only⟩ | ⟨absent, none⟩
      · rw [only, List.map_singleton, List.singleton_append, List.length_cons, List.length_cons,
          List.forall_mem_cons]
        refine ⟨by omega, ?_, fun same => ?_⟩
        · rw [Nat.add_right_cancel_iff, all]
          exact ⟨fun rest => ⟨⟨row, inside, matched⟩, rest⟩, And.right⟩
        · exact .cons ⟨row, inside, rfl, matched⟩ (aligned (Nat.add_right_cancel same))
      · rw [none, List.map_nil, List.nil_append, List.length_cons, List.forall_mem_cons]
        refine ⟨by omega, ?_, fun same => by omega⟩
        constructor
        · intro same
          omega
        · exact fun both => absurd both.1 absent

omit [DecidableEq ν] in
/-- Different objects have different keys. -/
theorem nodup_matched (keys : (store.objects.map StoredObject.key).Nodup) {objectKeys : List Nat}
    (distinct : (batch.map fun incoming => incoming.1.id).Nodup)
    (aligned : List.Forall₂ (fun incoming key => ∃ row ∈ store.objects, row.key = key ∧
      Matches row incoming) batch objectKeys) : objectKeys.Nodup := by
  induction aligned with
  | nil => exact List.nodup_nil
  | @cons incoming key batch objectKeys first rest induction =>
      obtain ⟨absent, behind⟩ := List.nodup_cons.mp distinct
      refine List.nodup_cons.mpr ⟨fun member => absent ?_, induction behind⟩
      obtain ⟨row, inside, rfl, matched⟩ := first
      obtain ⟨other, there, found, foundInside, same, otherMatched⟩ :=
        Batches.exists_of_mem_right rest member
      obtain rfl := List.inj_on_of_nodup_map keys foundInside inside same
      exact List.mem_map.mpr ⟨other, there, otherMatched.1.symm.trans matched.1⟩

end Keys

section Completed

variable {store : ObjectStore ν} {batch : List (Incoming ν)} {now : Nat}

/-- A matched row that was not written now was there before. -/
theorem mem_of_not_completed {row : StoredObject ν}
    (inside : row ∈ (withRows now batch store).objects) (complete : row.metadataComplete = true)
    (kept : row.key ∉ completedKeys now batch store) : row ∈ store.objects := by
  rw [completedKeys, List.mem_append, not_or] at kept
  rcases List.mem_append.mp inside with old | new
  · obtain ⟨before, member, rfl⟩ := List.mem_map.mp old
    rcases completeRow_cases now batch before with ⟨same, -⟩ | ⟨incoming, there, completed, -⟩
    · rwa [same]
    · refine absurd (List.mem_map.mpr ⟨before, ?_, (completeRow_key before).symm⟩) kept.1
      exact List.mem_filter.mpr ⟨member, List.any_eq_true.mpr ⟨incoming, there, completed⟩⟩
  · exact absurd (List.mem_map_of_mem new) kept.2

/-- A row that was written now had no tags. -/
theorem not_mem_of_completed (sound : store.Sound) {key : Nat}
    (written : key ∈ completedKeys now batch store) : key ∉ store.objectTags.map Prod.fst := by
  intro there
  obtain ⟨tags, member, rfl⟩ := List.mem_map.mp there
  obtain ⟨⟨object, inside, same, complete⟩, -⟩ := sound.packed tags member
  rcases List.mem_append.mp written with old | new
  · obtain ⟨row, found, equal⟩ := List.mem_map.mp old
    obtain ⟨rowInside, completed⟩ := List.mem_filter.mp found
    obtain ⟨incoming, -, completes⟩ := List.any_eq_true.mp completed
    obtain rfl := List.inj_on_of_nodup_map sound.keys inside rowInside (same.trans equal.symm)
    rw [(completes_eq_true.mp completes).2.1] at complete
    contradiction
  · obtain ⟨row, found, equal⟩ := List.mem_map.mp new
    obtain ⟨low, -⟩ := mem_insertedRows found
    have small := sound.below object inside
    omega

end Completed

theorem objectOrder_inj {left right : ObjectMetadata} :
    objectOrder left = objectOrder right ↔ left.id = right.id :=
  (List.map_injective_iff.mpr fun _ _ => UInt8.toNat_inj.mp).eq_iff

/-- A batch is freed of repetitions when an ID has one value. -/
theorem distinctObjects_eq_ok {objects others : List ObjectMetadata} :
    distinctObjects objects = .ok others ↔
      (∀ left ∈ objects, ∀ right ∈ objects, left.id = right.id → left = right) ∧
        others = Batches.dedupBy objectOrder (Batches.sortBy objectOrder objects) := by
  have consistent : Batches.Consistent objectOrder (Batches.sortBy objectOrder objects) ↔
      ∀ left ∈ objects, ∀ right ∈ objects, left.id = right.id → left = right := by
    rw [Batches.consistent_iff (Batches.pairwise_sortBy objectOrder objects)]
    simp only [Batches.mem_sortBy, objectOrder_inj]
  rw [distinctObjects, Checked.bind_eq_ok]
  constructor
  · rintro ⟨⟨⟩, holds, made⟩
    exact ⟨consistent.mp (Checked.ensure_eq_ok.mp holds), (Checked.pure_eq_ok.mp made).symm⟩
  · rintro ⟨holds, rfl⟩
    exact ⟨(), Checked.ensure_of (consistent.mpr holds), rfl⟩

theorem mem_distinctObjects {objects others : List ObjectMetadata}
    (made : distinctObjects objects = .ok others) {object : ObjectMetadata} :
    object ∈ others ↔ object ∈ objects := by
  obtain ⟨unique, rfl⟩ := distinctObjects_eq_ok.mp made
  rw [Batches.mem_dedupBy, Batches.mem_sortBy]
  simpa only [Batches.mem_sortBy, objectOrder_inj] using unique

theorem nodup_distinctObjects {objects others : List ObjectMetadata}
    (made : distinctObjects objects = .ok others) : (others.map ObjectMetadata.id).Nodup := by
  obtain ⟨-, rfl⟩ := distinctObjects_eq_ok.mp made
  have keys := Batches.nodup_dedupBy (Batches.pairwise_sortBy objectOrder objects)
  have ids : (Batches.dedupBy objectOrder (Batches.sortBy objectOrder objects)).map objectOrder =
      ((Batches.dedupBy objectOrder (Batches.sortBy objectOrder objects)).map
        ObjectMetadata.id).map fun id => id.map UInt8.toNat := by
    rw [List.map_map]
    rfl
  rw [ids] at keys
  exact keys.of_map _

theorem length_distinctObjects {objects others : List ObjectMetadata}
    (made : distinctObjects objects = .ok others) : others.length ≤ objects.length := by
  obtain ⟨-, rfl⟩ := distinctObjects_eq_ok.mp made
  exact (List.destutter_sublist _ _).length_le.trans (List.length_insertionSort _ _).le

/-- The shape that each object must have. -/
def WellShaped (object : ObjectMetadata) : Prop :=
  object.id.length = 32 ∧ (object.kind = 0 ∨ object.kind = 1) ∧ object.tags.length < 2 ^ 31

/-- The owners of a batch, one key each. -/
structure OwnersOf (owners : List (Bytes × Bytes)) (objects : List ObjectMetadata)
    (result : List (Bytes × Bytes)) : Prop where
  distinct : (result.map Prod.fst).Nodup
  kept : owners ⊆ result
  there : ∀ object ∈ objects, (object.ownerAddress, object.ownerPublicKey) ∈ result
  only : ∀ owner ∈ result, owner ∈ owners ∨
    ∃ object ∈ objects, owner = (object.ownerAddress, object.ownerPublicKey)

theorem collectOwners_cons {owners : List (Bytes × Bytes)} {object : ObjectMetadata}
    (shape : WellShaped object) (objects : List ObjectMetadata) :
    collectOwners owners (object :: objects) =
      match owners.find? fun owner => owner.1 = object.ownerAddress with
      | some owner => do
          Checked.ensure (owner.2 = object.ownerPublicKey)
            "conflicting immutable owner in metadata batch"
          collectOwners owners objects
      | none => collectOwners (owners ++ [(object.ownerAddress, object.ownerPublicKey)])
          objects := by
  cases found : owners.find? fun owner => owner.1 = object.ownerAddress with
  | none =>
      simp only [collectOwners, Checked.ensure_of shape.1, Checked.ensure_of shape.2.1,
        Checked.ensure_of shape.2.2, Checked.ok_bind, found]
  | some owner =>
      simp only [collectOwners, Checked.ensure_of shape.1, Checked.ensure_of shape.2.1,
        Checked.ensure_of shape.2.2, Checked.ok_bind, found]

theorem ownersOf_collectOwners {owners result : List (Bytes × Bytes)}
    {objects : List ObjectMetadata} (distinct : (owners.map Prod.fst).Nodup)
    (shapes : ∀ object ∈ objects, WellShaped object)
    (collected : collectOwners owners objects = .ok result) : OwnersOf owners objects result := by
  induction objects generalizing owners with
  | nil =>
      obtain rfl := Checked.pure_eq_ok.mp collected
      exact ⟨distinct, List.Subset.refl _, by simp, fun owner member => .inl member⟩
  | cons object objects induction =>
      obtain ⟨shape, others⟩ := List.forall_mem_cons.mp shapes
      rw [collectOwners_cons shape] at collected
      split at collected
      · next owner found =>
          obtain ⟨⟨⟩, same, rest⟩ := Checked.bind_eq_ok.mp collected
          have result := induction distinct others rest
          have equal : owner = (object.ownerAddress, object.ownerPublicKey) :=
            Prod.ext (by simpa using List.find?_some found) (Checked.ensure_eq_ok.mp same)
          refine ⟨result.distinct, result.kept, List.forall_mem_cons.mpr ⟨?_, result.there⟩, ?_⟩
          · rw [← equal]
            exact result.kept (List.mem_of_find?_eq_some found)
          · intro other member
            rcases result.only other member with old | ⟨source, inside, made⟩
            · exact .inl old
            · exact .inr ⟨source, List.mem_cons_of_mem _ inside, made⟩
      · next absent =>
          have apart : object.ownerAddress ∉ owners.map Prod.fst := by
            intro there
            obtain ⟨owner, inside, same⟩ := List.mem_map.mp there
            have differs := List.find?_eq_none.mp absent owner inside
            simp [same] at differs
          have longer : ((owners ++ [(object.ownerAddress, object.ownerPublicKey)]).map
              Prod.fst).Nodup := by
            rw [List.map_append]
            exact List.nodup_append_comm.mp (List.nodup_cons.mpr ⟨apart, distinct⟩)
          have result := induction longer others collected
          refine ⟨result.distinct,
            fun owner member => result.kept (List.mem_append_left _ member),
            List.forall_mem_cons.mpr ⟨?_, result.there⟩, ?_⟩
          · exact result.kept (List.mem_append_right _ (List.mem_singleton_self _))
          · intro other member
            rcases result.only other member with old | ⟨source, inside, made⟩
            · rcases List.mem_append.mp old with old | new
              · exact .inl old
              · exact .inr ⟨object, List.mem_cons_self, List.mem_singleton.mp new⟩
            · exact .inr ⟨source, List.mem_cons_of_mem _ inside, made⟩

/-- Owners are collected when no address has two keys. -/
theorem exists_collectOwners {owners : List (Bytes × Bytes)} {objects : List ObjectMetadata}
    (shapes : ∀ object ∈ objects, WellShaped object)
    (known : ∀ object ∈ objects, ∀ owner ∈ owners, owner.1 = object.ownerAddress →
      owner.2 = object.ownerPublicKey)
    (unique : ∀ left ∈ objects, ∀ right ∈ objects, left.ownerAddress = right.ownerAddress →
      left.ownerPublicKey = right.ownerPublicKey) :
    ∃ result, collectOwners owners objects = .ok result := by
  induction objects generalizing owners with
  | nil => exact ⟨owners, rfl⟩
  | cons object objects induction =>
      obtain ⟨shape, others⟩ := List.forall_mem_cons.mp shapes
      obtain ⟨first, behind⟩ := List.forall_mem_cons.mp known
      have rest : ∀ left ∈ objects, ∀ right ∈ objects, left.ownerAddress = right.ownerAddress →
          left.ownerPublicKey = right.ownerPublicKey := fun left leftMember right rightMember =>
        unique left (List.mem_cons_of_mem _ leftMember) right (List.mem_cons_of_mem _ rightMember)
      rw [collectOwners_cons shape]
      split
      · next owner found =>
          have same : owner.2 = object.ownerPublicKey :=
            first owner (List.mem_of_find?_eq_some found) (by simpa using List.find?_some found)
          rw [Checked.ensure_of same, Checked.ok_bind]
          exact induction others behind rest
      · refine induction others (fun other member owner there same => ?_) rest
        rcases List.mem_append.mp there with old | new
        · exact behind other member owner old same
        · obtain rfl := List.mem_singleton.mp new
          exact unique object List.mem_cons_self other (List.mem_cons_of_mem _ member) same

end ArIoGateway
