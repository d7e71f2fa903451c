import ArIoGateway.ObjectAdmission

/-!
# Immutable objects

The owners, the rows and the tags of a batch are put together: a batch is written exactly when it
agrees with itself and with what is stored, and what it leaves is what it brought.
-/

namespace ArIoGateway

open Octets

variable {ν : Type}

/-- What inserting an owner does. -/
structure OwnerInserted (rows : List (Bytes × Option Bytes)) (owner : Bytes × Bytes)
    (after : List (Bytes × Option Bytes)) : Prop where
  distinct : (after.map Prod.fst).Nodup
  kept : ∀ row ∈ rows, row.2 ≠ none → row ∈ after
  only : ∀ row ∈ after, row ∈ rows ∨ row = (owner.1, some owner.2)
  there : ∃ key, (owner.1, some key) ∈ after ∧ (key = owner.2 ∨ (owner.1, some key) ∈ rows)
  same : (owner.1, some owner.2) ∈ rows → after = rows

theorem ownerInserted_insertOwner {rows : List (Bytes × Option Bytes)}
    (distinct : (rows.map Prod.fst).Nodup) (owner : Bytes × Bytes) :
    OwnerInserted rows owner (insertOwner rows owner) := by
  rw [insertOwner]
  split
  · next address key found =>
      have here := List.mem_of_find?_eq_some found
      obtain rfl : address = owner.1 := by simpa using List.find?_some found
      exact ⟨distinct, fun row member _ => member, fun row member => .inl member,
        ⟨key, here, .inr here⟩, fun _ => rfl⟩
  · next address found =>
      have here := List.mem_of_find?_eq_some found
      obtain rfl : address = owner.1 := by simpa using List.find?_some found
      have unique : ∀ row ∈ rows, row.1 = owner.1 → row = (owner.1, none) :=
        fun row member equal => List.inj_on_of_nodup_map distinct member here equal
      refine ⟨?_, ?_, ?_, ⟨owner.2, ?_, .inl rfl⟩, ?_⟩
      · have addresses : (rows.map fun row =>
            if row.1 = owner.1 then (row.1, some owner.2) else row).map Prod.fst =
            rows.map Prod.fst := by
          rw [List.map_map]
          refine List.map_congr_left fun row _ => ?_
          rw [Function.comp_apply]
          split <;> rfl
        rwa [addresses]
      · intro row member known
        refine List.mem_map.mpr ⟨row, member, if_neg fun equal => known ?_⟩
        rw [unique row member equal]
      · intro row member
        obtain ⟨before, inside, made⟩ := List.mem_map.mp member
        split at made
        · next equal =>
            rw [← made, equal]
            exact .inr rfl
        · exact .inl (made ▸ inside)
      · exact List.mem_map.mpr ⟨_, here, if_pos rfl⟩
      · intro member
        have other := unique _ member rfl
        simp at other
  · next absent =>
      have outside : owner.1 ∉ rows.map Prod.fst := by
        intro inside
        obtain ⟨row, member, same⟩ := List.mem_map.mp inside
        have differs := List.find?_eq_none.mp absent row member
        simp [same] at differs
      refine ⟨?_, fun row member _ => List.mem_append_left _ member, ?_,
        ⟨owner.2, List.mem_append_right _ (List.mem_singleton_self _), .inl rfl⟩, ?_⟩
      · rw [List.map_append]
        exact List.nodup_append_comm.mp (List.nodup_cons.mpr ⟨outside, distinct⟩)
      · intro row member
        rcases List.mem_append.mp member with old | new
        · exact .inl old
        · exact .inr (List.mem_singleton.mp new)
      · exact fun member => absurd (List.mem_map_of_mem (f := Prod.fst) member) outside

/-- An owner's address has no other key. -/
def OwnerKnown (rows : List (Bytes × Option Bytes)) (owner : Bytes × Bytes) : Prop :=
  ∀ row ∈ rows, row.1 = owner.1 → row.2 = none ∨ row.2 = some owner.2

/-- What inserting owners does. -/
structure OwnersInserted (rows : List (Bytes × Option Bytes)) (owners : List (Bytes × Bytes))
    (after : List (Bytes × Option Bytes)) : Prop where
  distinct : (after.map Prod.fst).Nodup
  kept : ∀ row ∈ rows, row.2 ≠ none → row ∈ after
  there : (∀ owner ∈ owners, OwnerKnown rows owner) → ∀ owner ∈ owners,
    (owner.1, some owner.2) ∈ after
  same : (∀ owner ∈ owners, (owner.1, some owner.2) ∈ rows) → after = rows

theorem ownersInserted_foldl {rows : List (Bytes × Option Bytes)} {owners : List (Bytes × Bytes)}
    (distinct : (rows.map Prod.fst).Nodup) (apart : (owners.map Prod.fst).Nodup) :
    OwnersInserted rows owners (owners.foldl insertOwner rows) := by
  induction owners generalizing rows with
  | nil =>
      exact ⟨distinct, fun row member _ => member, fun _ _ none => by simp at none, fun _ => rfl⟩
  | cons owner owners induction =>
      obtain ⟨outside, behind⟩ := List.nodup_cons.mp apart
      have first := ownerInserted_insertOwner distinct owner
      have rest := induction first.distinct behind
      rw [List.foldl_cons]
      refine ⟨rest.distinct, ?_, ?_, ?_⟩
      · exact fun row member known => rest.kept row (first.kept row member known) known
      · intro known
        obtain ⟨knownFirst, knownRest⟩ := List.forall_mem_cons.mp known
        refine List.forall_mem_cons.mpr ⟨?_, rest.there fun other member => ?_⟩
        · obtain ⟨key, inside, origin⟩ := first.there
          have equal : key = owner.2 := by
            rcases origin with same | old
            · exact same
            · simpa using knownFirst _ old rfl
          rw [← equal]
          exact rest.kept _ inside (by simp)
        · intro row there same
          rcases first.only row there with old | new
          · exact knownRest other member row old same
          · rw [new] at same
            exact absurd (List.mem_map.mpr ⟨other, member, same.symm⟩) outside
      · intro there
        obtain ⟨here, others⟩ := List.forall_mem_cons.mp there
        rw [first.same here] at rest ⊢
        exact rest.same others

/-- The address of an owner is known or fits the index of the addresses. -/
def AddressFits (rules : ColumnRules ν) (rows : List (Bytes × Option Bytes))
    (owner : Bytes × Bytes) : Prop :=
  (∀ row ∈ rows, row.1 ≠ owner.1) → rules.fitsIndex owner.1 = true

/-- Owners are written exactly when new addresses fit the index and no address has another key. -/
theorem writeOwners_eq_ok {rules : ColumnRules ν} {store after : ObjectStore ν}
    {owners : List (Bytes × Bytes)} (distinct : (store.owners.map Prod.fst).Nodup)
    (apart : (owners.map Prod.fst).Nodup) :
    writeOwners rules owners store = .ok after ↔
      (∀ owner ∈ owners, AddressFits rules store.owners owner) ∧
        (∀ owner ∈ owners, OwnerKnown store.owners owner) ∧
          after = { store with owners := owners.foldl insertOwner store.owners } := by
  have inserted := ownersInserted_foldl distinct apart
  have agree : (∀ owner ∈ owners, ∀ row ∈ owners.foldl insertOwner store.owners,
      row.1 = owner.1 → row.2 = some owner.2) ↔
      ∀ owner ∈ owners, OwnerKnown store.owners owner := by
    constructor
    · intro holds owner member row inside same
      by_cases known : row.2 = none
      · exact .inl known
      · exact .inr (holds owner member row (inserted.kept row inside known) same)
    · intro known owner member row inside same
      have here := inserted.there known owner member
      rw [List.inj_on_of_nodup_map inserted.distinct inside here same]
  simp only [AddressFits]
  constructor
  · intro written
    obtain ⟨⟨⟩, fits, written⟩ := Checked.bind_eq_ok.mp written
    obtain ⟨⟨⟩, holds, made⟩ := Checked.bind_eq_ok.mp written
    exact ⟨Checked.ensure_eq_ok.mp fits, agree.mp (Checked.ensure_eq_ok.mp holds),
      (Checked.pure_eq_ok.mp made).symm⟩
  · rintro ⟨fits, known, rfl⟩
    refine Checked.bind_eq_ok.mpr ⟨(), Checked.ensure_of fits, ?_⟩
    exact Checked.bind_eq_ok.mpr ⟨(), Checked.ensure_of (agree.mpr known), rfl⟩

section Rows

variable {rules : ColumnRules ν}

theorem exists_castNumeric {text : Option String} :
    (∃ value, castNumeric rules text = .ok value) ↔
      ∀ digits ∈ text, (rules.read digits).isSome = true := by
  cases text with
  | none => simp [castNumeric]
  | some digits =>
      rw [castNumeric]
      cases found : rules.read digits with
      | none => simp [Checked.context, found]
      | some value => simp [Checked.context, found]

/-- An object has columns exactly when its texts and numbers are valid. -/
theorem exists_columnsOf {object : ObjectMetadata} :
    (∃ columns, columnsOf rules object = .ok columns) ↔
      (isColumnText object.contentType = true ∧ isColumnText object.contentEncoding = true) ∧
        ∀ text, text ∈ object.quantity ∨ text ∈ object.reward →
          (rules.read text).isSome = true := by
  have split : (∀ text, text ∈ object.quantity ∨ text ∈ object.reward →
      (rules.read text).isSome = true) ↔
      (∀ text ∈ object.quantity, (rules.read text).isSome = true) ∧
        ∀ text ∈ object.reward, (rules.read text).isSome = true :=
    ⟨fun all =>
        ⟨fun text member => all text (.inl member), fun text member => all text (.inr member)⟩,
      fun both text member => member.elim (both.1 text) (both.2 text)⟩
  rw [split, ← exists_castNumeric, ← exists_castNumeric]
  constructor
  · rintro ⟨columns, made⟩
    obtain ⟨⟨⟩, texts, quantity, readQuantity, reward, readReward, -⟩ :
        ∃ checked, _ ∧ ∃ quantity, castNumeric rules object.quantity = .ok quantity ∧
          ∃ reward, castNumeric rules object.reward = .ok reward ∧ _ := by
      simpa only [columnsOf, Checked.bind_eq_ok] using made
    exact ⟨Checked.ensure_eq_ok.mp texts, ⟨quantity, readQuantity⟩, reward, readReward⟩
  · rintro ⟨texts, ⟨quantity, readQuantity⟩, reward, readReward⟩
    rw [columnsOf, Checked.ensure_of texts, Checked.ok_bind, readQuantity, Checked.ok_bind,
      readReward]
    exact ⟨_, rfl⟩

theorem checkRow_eq_ok {object : ObjectMetadata} :
    checkRow rules object = .ok () ↔ rules.Holds object := by
  constructor
  · intro checked
    obtain ⟨⟨⟩, numbers, checked⟩ := Checked.bind_eq_ok.mp checked
    obtain ⟨⟨⟩, owner, target⟩ := Checked.bind_eq_ok.mp checked
    exact ⟨Checked.ensure_eq_ok.mp numbers, Checked.ensure_eq_ok.mp owner,
      Checked.ensure_eq_ok.mp target⟩
  · rintro ⟨numbers, owner, target⟩
    rw [checkRow, Checked.ensure_of numbers, Checked.ok_bind, Checked.ensure_of owner,
      Checked.ok_bind, Checked.ensure_of target]

theorem forM_checkRow {batch : List (Incoming ν)} :
    (batch.forM fun incoming => checkRow rules incoming.1) = .ok () ↔
      ∀ incoming ∈ batch, rules.Holds incoming.1 := by
  rw [List.forM_eq_forM]
  induction batch with
  | nil => exact iff_of_true rfl (by simp)
  | cons incoming batch induction =>
      rw [List.forM_cons, Checked.bind_eq_ok, List.forall_mem_cons, ← induction]
      constructor
      · rintro ⟨⟨⟩, first, rest⟩
        exact ⟨checkRow_eq_ok.mp first, rest⟩
      · rintro ⟨first, rest⟩
        exact ⟨(), checkRow_eq_ok.mpr first, rest⟩

/-- The objects with their columns. -/
structure Columned (rules : ColumnRules ν) (objects : List ObjectMetadata)
    (batch : List (Incoming ν)) : Prop where
  objects : batch.map Prod.fst = objects
  columns : ∀ incoming ∈ batch, columnsOf rules incoming.1 = .ok incoming.2

theorem mapM_columnsOf {objects : List ObjectMetadata} {batch : List (Incoming ν)} :
    objects.mapM (fun object => do pure (object, ← columnsOf rules object)) = .ok batch ↔
      Columned rules objects batch := by
  have each : ∀ (object : ObjectMetadata) (incoming : Incoming ν),
      (do pure (object, ← columnsOf rules object) : Checked (Incoming ν)) = .ok incoming ↔
        incoming.1 = object ∧ columnsOf rules object = .ok incoming.2 := by
    intro object incoming
    rw [Checked.bind_eq_ok]
    constructor
    · rintro ⟨columns, made, same⟩
      obtain rfl := Checked.pure_eq_ok.mp same
      exact ⟨rfl, made⟩
    · rintro ⟨rfl, made⟩
      exact ⟨incoming.2, made, rfl⟩
  rw [Checked.mapM_eq_ok]
  simp only [each]
  constructor
  · intro all
    induction all with
    | nil => exact ⟨rfl, by simp⟩
    | cons first rest induction =>
        obtain ⟨rfl, made⟩ := first
        exact ⟨by rw [List.map_cons, induction.objects],
          List.forall_mem_cons.mpr ⟨made, induction.columns⟩⟩
  · rintro ⟨rfl, made⟩
    induction batch with
    | nil => exact .nil
    | cons incoming batch induction =>
        obtain ⟨first, rest⟩ := List.forall_mem_cons.mp made
        exact .cons ⟨rfl, first⟩ (induction rest)

theorem exists_columned {objects : List ObjectMetadata} :
    (∃ batch, Columned rules objects batch) ↔
      ∀ object ∈ objects, ∃ columns, columnsOf rules object = .ok columns := by
  induction objects with
  | nil => exact iff_of_true ⟨[], rfl, by simp⟩ (by simp)
  | cons object objects induction =>
      rw [List.forall_mem_cons, ← induction]
      constructor
      · rintro ⟨batch, same, made⟩
        cases batch with
        | nil => contradiction
        | cons incoming batch =>
            obtain ⟨rfl, rest⟩ := List.cons.inj same
            obtain ⟨first, others⟩ := List.forall_mem_cons.mp made
            exact ⟨⟨incoming.2, first⟩, batch, rest, others⟩
      · rintro ⟨⟨columns, first⟩, batch, rest, others⟩
        exact ⟨(object, columns) :: batch, by rw [List.map_cons, rest],
          List.forall_mem_cons.mpr ⟨first, others⟩⟩

/-- An object does not contradict the row with its ID. -/
def Agrees (store : ObjectStore ν) (incoming : Incoming ν) : Prop :=
  ∀ row ∈ store.objects, row.id = incoming.1.id →
    row.kind = incoming.1.kind ∧ (row.metadataComplete = true → row.columns = incoming.2)

/-- The values of an object that is not complete yet pass the checks and fit the indexes. -/
def PassesChecks (rules : ColumnRules ν) (store : ObjectStore ν) (object : ObjectMetadata) : Prop :=
  (∀ row ∈ store.objects, row.id = object.id → row.metadataComplete = false) →
    rules.Holds object

/-- Objects that agree are written when they are not complete yet. -/
theorem written_iff {store : ObjectStore ν} (ids : (store.objects.map StoredObject.id).Nodup)
    {incoming : Incoming ν} (agrees : Agrees store incoming) :
    (store.objects.any (completes · incoming) || isMissing store incoming) = true ↔
      ∀ row ∈ store.objects, row.id = incoming.1.id → row.metadataComplete = false := by
  rw [Bool.or_eq_true, List.any_eq_true, isMissing_eq_true]
  constructor
  · rintro (⟨found, there, completed⟩ | none) row inside same
    · obtain ⟨sameId, incomplete, -⟩ := completes_eq_true.mp completed
      rwa [List.inj_on_of_nodup_map ids inside there (same.trans sameId.symm)]
    · exact absurd same (none row inside)
  · intro incomplete
    by_cases some : ∃ row ∈ store.objects, row.id = incoming.1.id
    · obtain ⟨row, inside, same⟩ := some
      exact .inl ⟨row, inside,
        completes_eq_true.mpr ⟨same, incomplete row inside same, (agrees row inside same).1⟩⟩
    · exact .inr fun row inside same => some ⟨row, inside, same⟩

theorem writeRows_eq_ok {store : ObjectStore ν} {batch : List (Incoming ν)} {now : Nat}
    {result : List Nat × ObjectStore ν}
    (room : store.next + (missingObjects batch store).length ≤ 2 ^ 63) :
    writeRows rules now batch store = .ok result ↔
      (∀ incoming ∈ batch,
        (store.objects.any (completes · incoming) || isMissing store incoming) = true →
          rules.Holds incoming.1) ∧
        result = (completedKeys now batch store, withRows now batch store) := by
  have filtered : (∀ incoming ∈ batch.filter fun incoming =>
      store.objects.any (completes · incoming) || isMissing store incoming,
        rules.Holds incoming.1) ↔
      ∀ incoming ∈ batch,
        (store.objects.any (completes · incoming) || isMissing store incoming) = true →
          rules.Holds incoming.1 := by
    simp only [List.mem_filter, and_imp]
  rw [writeRows, Checked.bind_eq_ok, ← filtered]
  constructor
  · rintro ⟨⟨⟩, checked, rest⟩
    obtain ⟨⟨⟩, -, made⟩ := Checked.bind_eq_ok.mp rest
    exact ⟨forM_checkRow.mp checked, (Checked.pure_eq_ok.mp made).symm⟩
  · rintro ⟨checked, rfl⟩
    refine ⟨(), forM_checkRow.mpr checked, ?_⟩
    rw [ensureSequence, Checked.ensure_of room]
    rfl

end Rows

section Metadata

variable [DecidableEq ν] {rules : ColumnRules ν} {store : ObjectStore ν}
  {objects : List ObjectMetadata} {now : Nat}

/-- The rows of a batch are written exactly when no object contradicts its row; the keys are those
of the rows of the objects. -/
theorem writeMetadata_eq_ok {completed keys : List Nat} {after : ObjectStore ν}
    (sound : store.Sound)
    (distinct : (objects.map ObjectMetadata.id).Nodup)
    (room : ∀ batch, Columned rules objects batch →
      store.next + (missingObjects batch store).length ≤ 2 ^ 63) :
    writeMetadata rules now objects store = .ok ((completed, keys), after) ↔
      ∃ batch, Columned rules objects batch ∧ (∀ incoming ∈ batch, Agrees store incoming) ∧
        (∀ object ∈ objects, PassesChecks rules store object) ∧
          completed = completedKeys now batch store ∧ after = withRows now batch store ∧
            keys = matchRows batch after := by
  rw [writeMetadata, Checked.bind_eq_ok]
  simp only [mapM_columnsOf]
  refine exists_congr fun batch => and_congr_right fun columned => ?_
  have ids : (batch.map fun incoming => incoming.1.id).Nodup := by
    have same : batch.map (fun incoming => incoming.1.id) = objects.map ObjectMetadata.id := by
      rw [← columned.objects, List.map_map]
      rfl
    rwa [same]
  have length : batch.length = objects.length := by rw [← columned.objects, List.length_map]
  have fits := room batch columned
  have spec := @matchRows_spec _ _ _ batch (@nodup_ids_withRows _ store batch now sound ids)
  have all : (matchRows batch (withRows now batch store)).length = objects.length ↔
      ∀ incoming ∈ batch, Agrees store incoming := by
    rw [← length, spec.2.1]
    exact forall₂_congr fun incoming member => exists_matches_iff sound ids member
  rw [Checked.bind_eq_ok]
  constructor
  · rintro ⟨result, rows, rest⟩
    obtain ⟨checked, rfl⟩ := (writeRows_eq_ok fits).mp rows
    obtain ⟨⟨⟩, matched, made⟩ := Checked.bind_eq_ok.mp rest
    obtain ⟨same, rfl⟩ := Prod.mk.inj (Checked.pure_eq_ok.mp made)
    obtain ⟨rfl, rfl⟩ := Prod.mk.inj same
    have agree := all.mp (Checked.ensure_eq_ok.mp matched)
    refine ⟨agree, fun object member incomplete => ?_, rfl, rfl, rfl⟩
    rw [← columned.objects] at member
    obtain ⟨incoming, inside, rfl⟩ := List.mem_map.mp member
    exact checked incoming inside ((written_iff sound.ids (agree incoming inside)).mpr incomplete)
  · rintro ⟨agree, checked, rfl, rfl, rfl⟩
    refine ⟨_, (writeRows_eq_ok fits).mpr ⟨fun incoming member written => ?_, rfl⟩, ?_⟩
    · refine checked incoming.1 ?_ ((written_iff sound.ids (agree incoming member)).mp written)
      rw [← columned.objects]
      exact List.mem_map_of_mem member
    · simp only
      rw [Checked.ensure_of (all.mpr agree)]
      rfl

end Metadata

section Invariants

variable {store : ObjectStore ν}

theorem ObjectStore.Sound.withOwners (sound : store.Sound) {rows : List (Bytes × Option Bytes)}
    (distinct : (rows.map Prod.fst).Nodup) : { store with owners := rows }.Sound :=
  ⟨sound.ids, sound.keys, sound.below, sound.bound, distinct, sound.names, sound.values, sound.rows,
    sound.packed⟩

theorem ObjectStore.Sound.withRows (sound : store.Sound) {batch : List (Incoming ν)} {now : Nat}
    (distinct : (batch.map fun incoming => incoming.1.id).Nodup)
    (room : store.next + (missingObjects batch store).length ≤ 2 ^ 63) :
    (withRows now batch store).Sound where
  ids := nodup_ids_withRows sound distinct
  keys := nodup_keys_withRows sound
  below := by
    intro row member
    rcases List.mem_append.mp member with old | new
    · obtain ⟨before, inside, rfl⟩ := List.mem_map.mp old
      rw [completeRow_key]
      exact Nat.lt_of_lt_of_le (sound.below before inside) (Nat.le_add_right _ _)
    · exact (mem_insertedRows new).2.1
  bound := room
  owners := sound.owners
  names := sound.names
  values := sound.values
  rows := sound.rows
  packed := by
    intro row member
    obtain ⟨⟨object, inside, same, complete⟩, tags⟩ := sound.packed row member
    refine ⟨⟨object, List.mem_append_left _ ?_, same, complete⟩, tags⟩
    exact List.mem_map.mpr ⟨object, inside, completeRow_of_complete complete⟩

/-- The tables with other dictionaries. -/
def ObjectStore.withDictionaries (store : ObjectStore ν) (names values : TagDictionary) :
    ObjectStore ν :=
  { store with names := names, values := values }

theorem ObjectStore.Sound.withDictionaries (sound : store.Sound) {names values : TagDictionary}
    (nameSound : names.Sound) (valueSound : values.Sound) (moreNames : store.names.Grows names)
    (moreValues : store.values.Grows values) : (store.withDictionaries names values).Sound :=
  ⟨sound.ids, sound.keys, sound.below, sound.bound, sound.owners, nameSound, valueSound, sound.rows,
    fun row member => by
      obtain ⟨object, tags, some, packed⟩ := sound.packed row member
      exact ⟨object, tags, some, packRefs_of_prefix moreNames moreValues packed⟩⟩

/-- What has been stored reads the same through larger dictionaries. -/
theorem ObjectStore.Sound.storedTags_withDictionaries (sound : store.Sound)
    {names values : TagDictionary} (nameSound : names.Sound) (valueSound : values.Sound)
    (moreNames : store.names.Grows names) (moreValues : store.values.Grows values) (key : Nat) :
    (store.withDictionaries names values).storedTags key = store.storedTags key := by
  have packed := packRefs_of_prefix moreNames moreValues (sound.packRefs_storedTags key)
  have rows : ((store.withDictionaries names values).objectTags.map Prod.fst).Nodup := sound.rows
  rw [storedTags_eq rows]
  exact join_of_sound nameSound valueSound packed

/-- Tags are stored exactly when their references are those of the object. -/
theorem ObjectStore.Sound.storedTags_eq_iff (sound : store.Sound) {key : Nat}
    {tags : List (Bytes × Bytes)} :
    store.storedTags key = tags ↔
      packRefs store.names.rows store.values.rows tags = .ok (tagRefs store.objectTags key) := by
  constructor
  · rintro rfl
    exact sound.packRefs_storedTags key
  · intro packed
    rw [storedTags_eq sound.rows]
    exact join_of_sound sound.names sound.values packed

theorem ObjectStore.Sound.withTags (sound : store.Sound) {completed : List Nat}
    {pairs : List (ObjectMetadata × Nat)} (distinct : (pairs.map Prod.snd).Nodup)
    (fresh : ∀ key ∈ completed, key ∉ store.objectTags.map Prod.fst)
    (complete : ∀ pair ∈ pairs, ∃ object ∈ store.objects, object.key = pair.2 ∧
      object.metadataComplete = true) : (withTags store completed pairs).Sound where
  ids := sound.ids
  keys := sound.keys
  below := sound.below
  bound := sound.bound
  owners := sound.owners
  names := sound.names
  values := sound.values
  rows := by
    rw [ArIoGateway.withTags, List.map_append]
    refine List.nodup_append.mpr ⟨sound.rows, nodup_filterMap distinct, ?_⟩
    rintro key old _ new rfl
    exact fresh key (mem_keys_filterMap new).2 old
  packed := by
    intro row member
    rcases List.mem_append.mp member with old | new
    · exact sound.packed row old
    · obtain ⟨pair, inside, brings⟩ := List.mem_filterMap.mp new
      obtain ⟨same, -, some, packed⟩ := tagRow_fst brings
      obtain ⟨object, there, equal, done⟩ := complete pair inside
      refine ⟨⟨object, there, equal.trans same.symm, done⟩, pair.1.tags, ?_, packed⟩
      exact fun none => some ((packRefs_eq_nil packed).mpr none)

/-- The tags of an object that is not written now stay. -/
theorem storedTags_withTags (sound : store.Sound) {completed : List Nat}
    {pairs : List (ObjectMetadata × Nat)} (after : (withTags store completed pairs).Sound)
    {key : Nat} (outside : key ∉ completed) :
    (withTags store completed pairs).storedTags key = store.storedTags key := by
  rw [after.storedTags_eq_iff]
  have absent : key ∉ (pairs.filterMap (tagRow store completed)).map Prod.fst :=
    fun inside => outside (mem_keys_filterMap inside).2
  rw [withTags]
  simp only
  rw [tagRefs_append absent]
  exact sound.packRefs_storedTags key

end Invariants

section Tags

variable {store : ObjectStore ν}

theorem mem_tagEntries {part : Bytes × Bytes → Bytes} {objects : List ObjectMetadata}
    {value : Bytes} : value ∈ tagEntries part objects ↔
      ∃ object ∈ objects, ∃ tag ∈ object.tags, part tag = value := by
  rw [tagEntries, Batches.mem_sortBy, List.mem_dedup]
  simp only [List.mem_flatMap, List.mem_map]

theorem nodup_tagEntries (part : Bytes × Bytes → Bytes) (objects : List ObjectMetadata) :
    (tagEntries part objects).Nodup :=
  (List.perm_insertionSort _ _).nodup_iff.mpr (List.nodup_dedup _)

theorem length_tagEntries (part : Bytes × Bytes → Bytes) (objects : List ObjectMetadata) :
    (tagEntries part objects).length ≤ (objects.flatMap ObjectMetadata.tags).length := by
  have parts : (objects.flatMap fun object => object.tags.map part) =
      (objects.flatMap ObjectMetadata.tags).map part := List.map_flatMap.symm
  have shorter :=
    (List.dedup_sublist (objects.flatMap fun object => object.tags.map part)).length_le
  rw [parts, List.length_map] at shorter
  rw [tagEntries, Batches.sortBy, List.length_insertionSort, parts]
  exact shorter

/-- Dictionaries that have grown by the tags of objects, with keys for all of them. -/
structure TagsResolved (store : ObjectStore ν) (objects : List ObjectMetadata)
    (keys : Dictionary × Dictionary) (names values : TagDictionary) : Prop where
  nameSound : names.Sound
  valueSound : values.Sound
  moreNames : store.names.Grows names
  moreValues : store.values.Grows values
  keyed : ∀ object ∈ objects, Keyed keys names.rows values.rows object.tags

/-- The tags of objects are resolved while the sequences have keys. -/
theorem exists_resolveTags (sound : store.Sound) {objects : List ObjectMetadata}
    (nameRoom : store.names.next + (objects.flatMap ObjectMetadata.tags).length ≤ 2 ^ 63)
    (valueRoom : store.values.next + (objects.flatMap ObjectMetadata.tags).length ≤ 2 ^ 63) :
    ∃ keys names values,
      resolveTags objects store = .ok (keys, store.withDictionaries names values) ∧
        TagsResolved store objects keys names values := by
  have nameCount := length_tagEntries Prod.fst objects
  have valueCount := length_tagEntries Prod.snd objects
  obtain ⟨names, nameKeys, nameRun, nameResolved⟩ :=
    TagDictionary.exists_resolve sound.names (nodup_tagEntries Prod.fst objects) (by omega)
  obtain ⟨values, valueKeys, valueRun, valueResolved⟩ :=
    TagDictionary.exists_resolve sound.values (nodup_tagEntries Prod.snd objects) (by omega)
  refine ⟨(nameKeys, valueKeys), names, values, ?_, nameResolved.sound, valueResolved.sound,
    nameResolved.grows, valueResolved.grows, fun object member tag inside => ⟨?_, ?_⟩⟩
  · rw [resolveTags, nameRun, Checked.ok_bind]
    simp only
    rw [valueRun]
    rfl
  · exact nameResolved.keyOf (mem_tagEntries.mpr ⟨object, member, tag, inside, rfl⟩)
  · exact valueResolved.keyOf (mem_tagEntries.mpr ⟨object, member, tag, inside, rfl⟩)

/-- All tags are written exactly when those of the objects that were complete before are the stored
ones; then they are stored for each object. -/
theorem writeTags_eq_ok {after : ObjectStore ν} (sound : store.Sound) {completed : List Nat}
    {keys : Dictionary × Dictionary} {objects : List ObjectMetadata} {objectKeys : List Nat}
    (same : objects.length = objectKeys.length) (distinct : objectKeys.Nodup)
    (fresh : ∀ key ∈ completed, key ∉ store.objectTags.map Prod.fst)
    (keyed : ∀ object ∈ objects, Keyed keys store.names.rows store.values.rows object.tags) :
    writeTags keys completed objects objectKeys store = .ok after ↔
      (∀ pair ∈ objects.zip objectKeys, pair.2 ∉ completed →
        store.storedTags pair.2 = pair.1.tags) ∧
        after = withTags store completed (objects.zip objectKeys) := by
  have positive : 0 < metadataBatchSize := by decide
  have pairs := Batches.flatMap_zip_chunks positive same
  have aligned := Batches.forall₂_chunks metadataBatchSize same
  have count := aligned.length_eq
  have keysOf : ((Batches.chunks metadataBatchSize objects).zip
      (Batches.chunks metadataBatchSize objectKeys)).flatMap Prod.snd = objectKeys := by
    rw [List.flatMap_def, List.map_snd_zip count.ge, Batches.flatten_chunks positive]
  have member : ∀ batch ∈ (Batches.chunks metadataBatchSize objects).zip
      (Batches.chunks metadataBatchSize objectKeys), ∀ object ∈ batch.1, object ∈ objects := by
    intro batch inside object there
    rw [← Batches.flatten_chunks positive objects]
    exact List.mem_flatten.mpr ⟨batch.1, (List.of_mem_zip inside).1, there⟩
  rw [writeTags, foldlM_writeTagBatch sound.names sound.values
    (fun batch inside => List.forall₂_zip aligned inside) (by rwa [keysOf])
    (fun key _ done => fresh key done)
    (fun batch inside object there => keyed object (member batch inside object there)), pairs]
  refine and_congr_left fun _ => forall₂_congr fun pair _ => ?_
  rw [TagsAgree, sound.storedTags_eq_iff]

/-- After the tags are written, those of each object are stored. -/
theorem storedTags_of_written (sound : store.Sound) {completed : List Nat}
    {keys : Dictionary × Dictionary} {objects : List ObjectMetadata} {objectKeys : List Nat}
    (same : objects.length = objectKeys.length) (distinct : objectKeys.Nodup)
    (fresh : ∀ key ∈ completed, key ∉ store.objectTags.map Prod.fst)
    (keyed : ∀ object ∈ objects, Keyed keys store.names.rows store.values.rows object.tags)
    (after : (withTags store completed (objects.zip objectKeys)).Sound)
    {pair : ObjectMetadata × Nat} (member : pair ∈ objects.zip objectKeys)
    (agrees : pair.2 ∉ completed → store.storedTags pair.2 = pair.1.tags) :
    (withTags store completed (objects.zip objectKeys)).storedTags pair.2 = pair.1.tags := by
  obtain ⟨refs, -, packed⟩ := (keyed pair.1 (List.of_mem_zip member).1).exists_packRefs
  have stored := (eq_tagRefs_iff distinct (fun key _ done => fresh key done) member packed same).mpr
    fun outside => sound.storedTags_eq_iff.mp (agrees outside)
  rw [after.storedTags_eq_iff, ← stored]
  exact packed

end Tags

section Together

variable {store : ObjectStore ν} {batch : List (Incoming ν)} {now : Nat}

/-- A row that was complete before is not written. -/
theorem not_completed_of_complete (sound : store.Sound) {row : StoredObject ν}
    (inside : row ∈ store.objects) (complete : row.metadataComplete = true) :
    row.key ∉ completedKeys now batch store := by
  intro written
  rcases List.mem_append.mp written with old | new
  · obtain ⟨other, found, same⟩ := List.mem_map.mp old
    obtain ⟨there, completed⟩ := List.mem_filter.mp found
    obtain ⟨incoming, -, completes⟩ := List.any_eq_true.mp completed
    obtain rfl := List.inj_on_of_nodup_map sound.keys there inside same
    rw [(completes_eq_true.mp completes).2.1] at complete
    contradiction
  · obtain ⟨other, found, same⟩ := List.mem_map.mp new
    have large := (mem_insertedRows found).1
    have small := sound.below row inside
    omega

/-- The tags of an object that is complete are the stored ones. -/
def TagsKept (store : ObjectStore ν) (object : ObjectMetadata) : Prop :=
  ∀ row ∈ store.objects, row.id = object.id → row.metadataComplete = true →
    store.storedTags row.key = object.tags

variable [DecidableEq ν]

/-- The objects of a batch with the keys of their rows. -/
def keyedObjects (now : Nat) (batch : List (Incoming ν)) (store : ObjectStore ν) :
    List (ObjectMetadata × Nat) :=
  (batch.map Prod.fst).zip (matchRows batch (withRows now batch store))

/-- The tables after a batch. -/
def afterBatch (now : Nat) (batch : List (Incoming ν)) (names values : TagDictionary)
    (store : ObjectStore ν) : ObjectStore ν :=
  withTags ((withRows now batch store).withDictionaries names values)
    (completedKeys now batch store) (keyedObjects now batch store)

variable (sound : store.Sound) (distinct : (batch.map fun incoming => incoming.1.id).Nodup)
  (agree : ∀ incoming ∈ batch, Agrees store incoming)

include sound distinct agree

theorem forall₂_matchRows :
    List.Forall₂ (fun incoming key => ∃ row ∈ (withRows now batch store).objects, row.key = key ∧
      Matches row incoming) batch (matchRows batch (withRows now batch store)) := by
  obtain ⟨-, all, aligned⟩ :=
    @matchRows_spec _ _ _ batch (@nodup_ids_withRows _ store batch now sound distinct)
  refine aligned (all.mpr fun incoming member => ?_)
  exact (exists_matches_iff sound distinct member).mpr (agree incoming member)

theorem length_matchRows : (batch.map Prod.fst).length =
    (matchRows batch (withRows now batch store)).length := by
  rw [List.length_map]
  exact (forall₂_matchRows sound distinct agree).length_eq

theorem nodup_matchRows : (matchRows batch (withRows now batch store)).Nodup :=
  nodup_matched (nodup_keys_withRows sound) distinct (forall₂_matchRows sound distinct agree)

theorem nodup_keyedObjects : ((keyedObjects now batch store).map Prod.snd).Nodup := by
  rw [keyedObjects, List.map_snd_zip (length_matchRows sound distinct agree).ge]
  exact nodup_matchRows sound distinct agree

/-- An object is paired with the key of its own row. -/
theorem exists_row_of_keyedObjects {pair : ObjectMetadata × Nat}
    (member : pair ∈ keyedObjects now batch store) :
    ∃ incoming ∈ batch, incoming.1 = pair.1 ∧ ∃ row ∈ (withRows now batch store).objects,
      row.key = pair.2 ∧ Matches row incoming := by
  rw [keyedObjects, List.zip_map_left] at member
  obtain ⟨⟨incoming, key⟩, inside, rfl⟩ := List.mem_map.mp member
  exact ⟨incoming, (List.of_mem_zip inside).1, rfl,
    List.forall₂_zip (forall₂_matchRows sound distinct agree) inside⟩

/-- Every object has a row of its own. -/
theorem exists_mem_keyedObjects {incoming : Incoming ν} (member : incoming ∈ batch) :
    ∃ row ∈ (withRows now batch store).objects, Matches row incoming ∧
      (incoming.1, row.key) ∈ keyedObjects now batch store := by
  obtain ⟨row, inside, matched⟩ :=
    (exists_matches_iff sound distinct member).mpr (agree incoming member)
  refine ⟨row, inside, matched, ?_⟩
  have there : incoming.1 ∈ (keyedObjects now batch store).map Prod.fst := by
    rw [keyedObjects, List.map_fst_zip (length_matchRows sound distinct agree).le]
    exact List.mem_map_of_mem member
  obtain ⟨pair, found, same⟩ := List.mem_map.mp there
  obtain ⟨other, otherMember, equal, otherRow, otherInside, key, otherMatched⟩ :=
    exists_row_of_keyedObjects sound distinct agree found
  have sameRow : otherRow = row := by
    refine List.inj_on_of_nodup_map (nodup_ids_withRows sound distinct) otherInside inside ?_
    rw [otherMatched.1, matched.1, equal, same]
  rw [← same, ← sameRow, key]
  exact found

/-- The tags of the objects that are not written now are to be those that are stored. -/
theorem tagsKept_iff : (∀ pair ∈ keyedObjects now batch store,
      pair.2 ∉ completedKeys now batch store → store.storedTags pair.2 = pair.1.tags) ↔
      ∀ incoming ∈ batch, TagsKept store incoming.1 := by
  constructor
  · intro all incoming member row inside same complete
    obtain ⟨other, otherInside, matched, paired⟩ :=
      @exists_mem_keyedObjects _ store batch now _ sound distinct agree _ member
    have here : row ∈ (withRows now batch store).objects := List.mem_append_left _
      (List.mem_map.mpr ⟨row, inside, completeRow_of_complete complete⟩)
    obtain rfl : other = row := List.inj_on_of_nodup_map (nodup_ids_withRows sound distinct)
      otherInside here (matched.1.trans same.symm)
    exact all _ paired (not_completed_of_complete sound inside complete)
  · intro all pair member outside
    obtain ⟨incoming, inside, same, row, there, key, matched⟩ :=
      exists_row_of_keyedObjects sound distinct agree member
    have before : row ∈ store.objects :=
      mem_of_not_completed there matched.2.1 (by rwa [key])
    rw [← same, ← key]
    exact all incoming inside row before matched.1 matched.2.1

section Resolved

variable {objects : List ObjectMetadata} {keys : Dictionary × Dictionary}
  {names values : TagDictionary} (room : store.next + (missingObjects batch store).length ≤ 2 ^ 63)
  (resolved : TagsResolved store objects keys names values)

include room resolved

omit [DecidableEq ν] agree in
theorem sound_withDictionaries :
    ((withRows now batch store).withDictionaries names values).Sound :=
  (sound.withRows distinct room).withDictionaries resolved.nameSound resolved.valueSound
    resolved.moreNames resolved.moreValues

omit [DecidableEq ν] agree in
theorem storedTags_resolved (key : Nat) :
    ((withRows now batch store).withDictionaries names values).storedTags key =
      store.storedTags key :=
  (sound.withRows distinct room).storedTags_withDictionaries resolved.nameSound
    resolved.valueSound resolved.moreNames resolved.moreValues key

theorem sound_afterBatch : (afterBatch now batch names values store).Sound := by
  refine (sound_withDictionaries sound distinct room resolved).withTags
    (nodup_keyedObjects sound distinct agree) (fun key done => not_mem_of_completed sound done)
    fun pair member => ?_
  obtain ⟨_, _, _, row, inside, key, matched⟩ :=
    exists_row_of_keyedObjects sound distinct agree member
  exact ⟨row, inside, key, matched.2.1⟩

/-- A row that was complete stays as it is, with its tags. -/
theorem mem_afterBatch_of_complete {row : StoredObject ν} (inside : row ∈ store.objects)
    (complete : row.metadataComplete = true) :
    row ∈ (afterBatch now batch names values store).objects ∧
      (afterBatch now batch names values store).storedTags row.key = store.storedTags row.key := by
  refine ⟨List.mem_append_left _ (List.mem_map.mpr
    ⟨row, inside, completeRow_of_complete complete⟩), ?_⟩
  have after := @sound_afterBatch _ store batch now _ sound distinct agree _ _ _ _ room resolved
  rw [afterBatch, storedTags_withTags (sound_withDictionaries sound distinct room resolved)
    after (not_completed_of_complete sound inside complete),
    storedTags_resolved sound distinct room resolved]

variable (same : batch.map Prod.fst = objects)

include same

/-- After the rows, the tags are written exactly when those of complete objects are the stored
ones. -/
theorem writeTags_withRows {after : ObjectStore ν} :
    writeTags keys (completedKeys now batch store) objects
        (matchRows batch (withRows now batch store))
        ((withRows now batch store).withDictionaries names values) = .ok after ↔
      (∀ incoming ∈ batch, TagsKept store incoming.1) ∧
        after = afterBatch now batch names values store := by
  subst same
  rw [writeTags_eq_ok (sound_withDictionaries sound distinct room resolved)
    (length_matchRows sound distinct agree) (nodup_matchRows sound distinct agree)
    (fun key done => not_mem_of_completed sound done) resolved.keyed,
    ← @tagsKept_iff _ store batch now _ sound distinct agree]
  refine and_congr_left fun _ => forall₂_congr fun pair _ => ?_
  rw [storedTags_resolved sound distinct room resolved]

/-- After a batch, each object has a complete row with its columns and its tags. -/
theorem storedTags_afterBatch (kept : ∀ incoming ∈ batch, TagsKept store incoming.1)
    {incoming : Incoming ν} (member : incoming ∈ batch) :
    ∃ row ∈ (afterBatch now batch names values store).objects, Matches row incoming ∧
      (afterBatch now batch names values store).storedTags row.key = incoming.1.tags := by
  obtain ⟨row, inside, matched, paired⟩ :=
    @exists_mem_keyedObjects _ store batch now _ sound distinct agree _ member
  have after := @sound_afterBatch _ store batch now _ sound distinct agree _ _ _ _ room resolved
  refine ⟨row, inside, matched, ?_⟩
  subst same
  refine storedTags_of_written (sound_withDictionaries sound distinct room resolved)
    (length_matchRows sound distinct agree) (nodup_matchRows sound distinct agree)
    (fun key done => not_mem_of_completed sound done) resolved.keyed after paired fun outside => ?_
  rw [storedTags_resolved sound distinct room resolved]
  exact (tagsKept_iff sound distinct agree).mpr kept _ paired outside

end Resolved

/-- Each object of a batch has a complete row with its columns, and its tags are stored. -/
def Holds (store : ObjectStore ν) (batch : List (Incoming ν)) : Prop :=
  ∀ incoming ∈ batch, ∃ row ∈ store.objects, Matches row incoming ∧
    store.storedTags row.key = incoming.1.tags

end Together

section Again

variable {store : ObjectStore ν} {batch : List (Incoming ν)} {now : Nat}

theorem Holds.unique (sound : store.Sound) (holds : Holds store batch) {incoming : Incoming ν}
    (member : incoming ∈ batch) {row : StoredObject ν} (inside : row ∈ store.objects)
    (same : row.id = incoming.1.id) :
    Matches row incoming ∧ store.storedTags row.key = incoming.1.tags := by
  obtain ⟨found, there, matched, tags⟩ := holds incoming member
  obtain rfl := List.inj_on_of_nodup_map sound.ids inside there (same.trans matched.1.symm)
  exact ⟨matched, tags⟩

theorem Holds.agrees (sound : store.Sound) (holds : Holds store batch) :
    ∀ incoming ∈ batch, Agrees store incoming := by
  intro incoming member row inside same
  obtain ⟨matched, -⟩ := holds.unique sound member inside same
  exact ⟨matched.2.2.1, fun _ => matched.2.2.2⟩

theorem Holds.tagsKept (sound : store.Sound) (holds : Holds store batch) :
    ∀ incoming ∈ batch, TagsKept store incoming.1 :=
  fun _ member _ inside same _ => (holds.unique sound member inside same).2

/-- Nothing is missing and nothing is completed. -/
theorem Holds.not_any_completes (sound : store.Sound) (holds : Holds store batch)
    {row : StoredObject ν} (inside : row ∈ store.objects) : batch.any (completes row) = false := by
  rw [List.any_eq_false]
  intro incoming member completed
  obtain ⟨same, incomplete, -⟩ := completes_eq_true.mp completed
  rw [(holds.unique sound member inside same).1.2.1] at incomplete
  contradiction

theorem Holds.missingObjects_eq_nil (holds : Holds store batch) :
    missingObjects batch store = [] := by
  refine List.filter_eq_nil_iff.mpr fun incoming member missing => ?_
  obtain ⟨row, inside, matched, -⟩ := holds incoming member
  exact isMissing_eq_true.mp missing row inside matched.1

theorem Holds.insertedRows_eq_nil (holds : Holds store batch) :
    insertedRows now batch store = [] := by
  rw [insertedRows, holds.missingObjects_eq_nil]
  rfl

theorem Holds.completedKeys_eq_nil (sound : store.Sound) (holds : Holds store batch) :
    completedKeys now batch store = [] := by
  have none : (store.objects.filter fun row => batch.any (completes row)) = [] :=
    List.filter_eq_nil_iff.mpr fun row inside => by
      rw [holds.not_any_completes sound inside]
      exact Bool.false_ne_true
  rw [completedKeys, none, holds.insertedRows_eq_nil]
  rfl

theorem Holds.withRows_eq (sound : store.Sound) (holds : Holds store batch) :
    withRows now batch store = store := by
  have rows : store.objects.map (completeRow now batch) = store.objects.map id := by
    refine List.map_congr_left fun row inside => ?_
    rcases completeRow_cases now batch row with ⟨same, -⟩ | ⟨incoming, there, completed, -⟩
    · exact same
    · have stays := List.any_eq_false.mp (holds.not_any_completes sound inside)
      exact absurd completed (stays incoming there)
  rw [withRows, rows, List.map_id, holds.insertedRows_eq_nil, holds.missingObjects_eq_nil,
    List.append_nil]
  rfl

theorem withTags_nil (pairs : List (ObjectMetadata × Nat)) : withTags store [] pairs = store := by
  have rows : pairs.filterMap (tagRow store []) = [] := by
    refine List.filterMap_eq_nil_iff.mpr fun pair _ => ?_
    cases brings : tagRow store [] pair with
    | none => rfl
    | some row => exact absurd (tagRow_fst brings).2.1 List.not_mem_nil
  rw [withTags, rows, List.append_nil]

/-- A batch that the tables hold changes nothing. -/
theorem Holds.afterBatch_eq [DecidableEq ν] (sound : store.Sound) (holds : Holds store batch) :
    afterBatch now batch store.names store.values store = store := by
  rw [afterBatch, holds.withRows_eq sound, holds.completedKeys_eq_nil sound]
  exact withTags_nil _

/-- Tags whose bytes are all in the dictionaries are found there. -/
theorem exists_resolveTags_of_there (sound : store.Sound) {objects : List ObjectMetadata}
    (there : ∀ object ∈ objects, ∀ tag ∈ object.tags,
      tag.1 ∈ store.names.rows.map Prod.snd ∧ tag.2 ∈ store.values.rows.map Prod.snd) :
    ∃ keys, resolveTags objects store = .ok (keys, store) ∧
      TagsResolved store objects keys store.names store.values := by
  have nameThere : ∀ value ∈ tagEntries Prod.fst objects,
      value ∈ store.names.rows.map Prod.snd := by
    intro value member
    obtain ⟨object, inside, tag, found, rfl⟩ := mem_tagEntries.mp member
    exact (there object inside tag found).1
  have valueThere : ∀ value ∈ tagEntries Prod.snd objects,
      value ∈ store.values.rows.map Prod.snd := by
    intro value member
    obtain ⟨object, inside, tag, found, rfl⟩ := mem_tagEntries.mp member
    exact (there object inside tag found).2
  obtain ⟨nameKeys, nameRun, nameResolved⟩ :=
    TagDictionary.exists_resolve_of_there sound.names nameThere
  obtain ⟨valueKeys, valueRun, valueResolved⟩ :=
    TagDictionary.exists_resolve_of_there sound.values valueThere
  refine ⟨(nameKeys, valueKeys), ?_, nameResolved.sound, valueResolved.sound, List.prefix_rfl,
    List.prefix_rfl, fun object member tag inside => ⟨?_, ?_⟩⟩
  · rw [resolveTags, nameRun, Checked.ok_bind]
    simp only
    rw [valueRun]
    rfl
  · exact nameResolved.keyOf (mem_tagEntries.mpr ⟨object, member, tag, inside, rfl⟩)
  · exact valueResolved.keyOf (mem_tagEntries.mpr ⟨object, member, tag, inside, rfl⟩)

end Again

/-! ## Writing a batch -/

section Batch

variable [DecidableEq ν] {rules : ColumnRules ν} {store after : ObjectStore ν}
  {batch objects : List ObjectMetadata} {owners : List (Bytes × Bytes)}
  {incoming : List (Incoming ν)} {dictionaryKeys : Option (Dictionary × Dictionary)} {now : Nat}
  {keys : List Nat}

/-- The tables with the owners of a batch. -/
def withOwners (owners : List (Bytes × Bytes)) (store : ObjectStore ν) : ObjectStore ν :=
  { store with owners := owners.foldl insertOwner store.owners }

/-- What is checked of a batch, with its distinct objects, its owners and its columns. -/
structure Accepted (rules : ColumnRules ν) (store : ObjectStore ν) (batch : List ObjectMetadata)
    (objects : List ObjectMetadata) (owners : List (Bytes × Bytes))
    (incoming : List (Incoming ν)) : Prop where
  size : batch.length ≤ maxBundleBatchSize
  made : distinctObjects batch = .ok objects
  collected : collectOwners [] objects = .ok owners
  fits : ∀ owner ∈ owners, AddressFits rules store.owners owner
  known : ∀ owner ∈ owners, OwnerKnown store.owners owner
  columned : Columned rules objects incoming
  agree : ∀ object ∈ incoming, Agrees store object
  checked : ∀ object ∈ objects, PassesChecks rules store object
  kept : ∀ object ∈ incoming, TagsKept store object.1

/-- The tags of a batch get keys whatever else has been written. -/
def KeysOfTags (dictionaryKeys : Option (Dictionary × Dictionary)) (store : ObjectStore ν)
    (objects : List ObjectMetadata) : Prop :=
  ∀ rowed : ObjectStore ν, rowed.Sound → rowed.names = store.names → rowed.values = store.values →
    ∃ tagKeys names values,
      keysOfTags dictionaryKeys objects rowed = .ok (tagKeys, rowed.withDictionaries names values) ∧
        TagsResolved store objects tagKeys names values

omit [DecidableEq ν] in
theorem TagsResolved.withOwners {tagKeys : Dictionary × Dictionary} {names values : TagDictionary}
    (resolved : TagsResolved store objects tagKeys names values) :
    TagsResolved (withOwners owners store) objects tagKeys names values :=
  ⟨resolved.nameSound, resolved.valueSound, resolved.moreNames, resolved.moreValues, resolved.keyed⟩

theorem wellShaped_of_collectOwners {known : List (Bytes × Bytes)}
    (collected : collectOwners known objects = .ok owners) :
    ∀ object ∈ objects, WellShaped object := by
  induction objects generalizing known with
  | nil => simp
  | cons object objects induction =>
      rw [collectOwners] at collected
      obtain ⟨⟨⟩, id, collected⟩ := Checked.bind_eq_ok.mp collected
      obtain ⟨⟨⟩, kind, collected⟩ := Checked.bind_eq_ok.mp collected
      obtain ⟨⟨⟩, tags, collected⟩ := Checked.bind_eq_ok.mp collected
      refine List.forall_mem_cons.mpr ⟨⟨Checked.ensure_eq_ok.mp id, Checked.ensure_eq_ok.mp kind,
        Checked.ensure_eq_ok.mp tags⟩, ?_⟩
      split at collected
      · obtain ⟨⟨⟩, -, rest⟩ := Checked.bind_eq_ok.mp collected
        exact induction rest
      · exact induction collected

theorem ownersOf_batch (collected : collectOwners [] objects = .ok owners) :
    OwnersOf [] objects owners := by
  refine ownersOf_collectOwners ?_ (wellShaped_of_collectOwners collected) collected
  exact List.nodup_nil

/-- The stages of a batch. -/
theorem writeObjectsWithKeys_eq_ok (some : batch ≠ []) :
    writeObjectsWithKeys rules now batch dictionaryKeys store = .ok (keys, after) ↔
      batch.length ≤ maxBundleBatchSize ∧ ∃ objects, distinctObjects batch = .ok objects ∧
        ∃ owners, collectOwners [] objects = .ok owners ∧
          ∃ owned, writeOwners rules owners store = .ok owned ∧
            ∃ completed rowed,
              writeMetadata rules now objects owned = .ok ((completed, keys), rowed) ∧
              ∃ tagKeys resolved, keysOfTags dictionaryKeys objects rowed = .ok (tagKeys, resolved) ∧
                writeTags tagKeys completed objects keys resolved = .ok after := by
  have full : batch.isEmpty = false := by rwa [List.isEmpty_eq_false_iff]
  rw [writeObjectsWithKeys, full]
  constructor
  · intro written
    obtain ⟨⟨⟩, size, written⟩ := Checked.bind_eq_ok.mp written
    obtain ⟨objects, made, written⟩ := Checked.bind_eq_ok.mp written
    obtain ⟨owners, collected, written⟩ := Checked.bind_eq_ok.mp written
    obtain ⟨owned, ownersWritten, written⟩ := Checked.bind_eq_ok.mp written
    obtain ⟨⟨⟨completed, rowKeys⟩, rowed⟩, rows, written⟩ := Checked.bind_eq_ok.mp written
    obtain ⟨⟨tagKeys, resolved⟩, found, written⟩ := Checked.bind_eq_ok.mp written
    obtain ⟨tagged, tags, written⟩ := Checked.bind_eq_ok.mp written
    obtain ⟨rfl, rfl⟩ := Prod.mk.inj (Checked.pure_eq_ok.mp written)
    exact ⟨Checked.ensure_eq_ok.mp size, objects, made, owners, collected, owned, ownersWritten,
      completed, rowed, rows, tagKeys, resolved, found, tags⟩
  · rintro ⟨size, objects, made, owners, collected, owned, ownersWritten, completed, rowed, rows,
      tagKeys, resolved, found, tags⟩
    refine Checked.bind_eq_ok.mpr ⟨(), Checked.ensure_of size, ?_⟩
    refine Checked.bind_eq_ok.mpr ⟨objects, made, ?_⟩
    refine Checked.bind_eq_ok.mpr ⟨owners, collected, ?_⟩
    refine Checked.bind_eq_ok.mpr ⟨owned, ownersWritten, ?_⟩
    refine Checked.bind_eq_ok.mpr ⟨((completed, keys), rowed), rows, ?_⟩
    refine Checked.bind_eq_ok.mpr ⟨(tagKeys, resolved), found, ?_⟩
    exact Checked.bind_eq_ok.mpr ⟨after, tags, rfl⟩

omit [DecidableEq ν] in
theorem ids_of_columned (made : distinctObjects batch = .ok objects)
    (columned : Columned rules objects incoming) :
    (incoming.map fun object => object.1.id).Nodup := by
  have same : incoming.map (fun object => object.1.id) = objects.map ObjectMetadata.id := by
    rw [← columned.objects, List.map_map]
    rfl
  rw [same]
  exact nodup_distinctObjects made

/-- A batch is written exactly when it is accepted, and the tables afterwards are those with its
owners, its rows and its tags. -/
theorem writeObjectsWithKeys_iff (some : batch ≠ []) (sound : store.Sound)
    (room : ∀ objects incoming, distinctObjects batch = .ok objects →
      Columned rules objects incoming →
        store.next + (missingObjects incoming store).length ≤ 2 ^ 63)
    (resolves : ∀ objects, distinctObjects batch = .ok objects →
      KeysOfTags dictionaryKeys store objects) :
    writeObjectsWithKeys rules now batch dictionaryKeys store = .ok (keys, after) ↔
      ∃ objects owners incoming, Accepted rules store batch objects owners incoming ∧
        ∃ tagKeys names values, TagsResolved store objects tagKeys names values ∧
          keysOfTags dictionaryKeys objects (withRows now incoming (withOwners owners store)) =
            .ok (tagKeys,
              (withRows now incoming (withOwners owners store)).withDictionaries names values) ∧
          keys = matchRows incoming (withRows now incoming (withOwners owners store)) ∧
            after = afterBatch now incoming names values (withOwners owners store) := by
  rw [writeObjectsWithKeys_eq_ok some]
  have apart : ∀ {objects owners}, collectOwners [] objects = .ok owners →
      (owners.map Prod.fst).Nodup := fun collected => (ownersOf_batch collected).distinct
  have ownedSound : ∀ {objects owners}, collectOwners [] objects = .ok owners →
      (withOwners owners store).Sound := fun collected =>
    sound.withOwners (ownersInserted_foldl sound.owners (apart collected)).distinct
  constructor
  · rintro ⟨size, objects, made, owners, collected, owned, ownersWritten, completed, rowed, rows,
      tagKeys, resolved, found, tags⟩
    obtain ⟨addresses, known, rfl⟩ :=
      (writeOwners_eq_ok sound.owners (apart collected)).mp ownersWritten
    obtain ⟨incoming, columned, agree, checked, rfl, rfl, rfl⟩ :=
      (writeMetadata_eq_ok (ownedSound collected) (nodup_distinctObjects made)
        fun incoming columned => room objects incoming made columned).mp rows
    have ids := ids_of_columned made columned
    have fits := room objects incoming made columned
    obtain ⟨otherKeys, names, values, keysFound, keysResolved⟩ := resolves objects made
      (withRows now incoming (withOwners owners store)) ((ownedSound collected).withRows ids fits)
      rfl rfl
    obtain ⟨rfl, rfl⟩ := Prod.mk.inj (Except.ok.inj (found.symm.trans keysFound))
    obtain ⟨kept, rfl⟩ := (writeTags_withRows (ownedSound collected) ids agree fits
      keysResolved.withOwners columned.objects).mp tags
    exact ⟨objects, owners, incoming,
      ⟨size, made, collected, addresses, known, columned, agree, checked, kept⟩, tagKeys, names,
      values, keysResolved, keysFound, rfl, rfl⟩
  · rintro ⟨objects, owners, incoming, accepted, tagKeys, names, values, resolved, found, rfl, rfl⟩
    have collected := accepted.collected
    have ids := ids_of_columned accepted.made accepted.columned
    have fits := room objects incoming accepted.made accepted.columned
    refine ⟨accepted.size, objects, accepted.made, owners, collected, withOwners owners store,
      (writeOwners_eq_ok sound.owners (apart collected)).mpr ⟨accepted.fits, accepted.known, rfl⟩,
      completedKeys now incoming (withOwners owners store), _,
      (writeMetadata_eq_ok (ownedSound collected) (nodup_distinctObjects accepted.made)
        fun incoming columned => room objects incoming accepted.made columned).mpr
        ⟨incoming, accepted.columned, accepted.agree, accepted.checked, rfl, rfl, rfl⟩,
      tagKeys, _, found, ?_⟩
    exact (writeTags_withRows (ownedSound collected) ids accepted.agree fits resolved.withOwners
      accepted.columned.objects).mpr ⟨accepted.kept, rfl⟩

omit [DecidableEq ν] in
theorem Columned.exists_incoming (columned : Columned rules objects incoming)
    {object : ObjectMetadata} (member : object ∈ objects) :
    ∃ columns, (object, columns) ∈ incoming ∧ columnsOf rules object = .ok columns := by
  rw [← columned.objects] at member
  obtain ⟨found, inside, rfl⟩ := List.mem_map.mp member
  exact ⟨found.2, inside, columned.columns found inside⟩

omit [DecidableEq ν] in
theorem Columned.mem_objects (columned : Columned rules objects incoming) {found : Incoming ν}
    (member : found ∈ incoming) : found.1 ∈ objects := by
  rw [← columned.objects]
  exact List.mem_map_of_mem member

omit [DecidableEq ν] in
theorem Accepted.writable (accepted : Accepted rules store batch objects owners incoming) :
    Writable rules store batch := by
  have members : ∀ object ∈ batch, object ∈ objects := fun object member =>
    (mem_distinctObjects accepted.made).mpr member
  have valid : ∀ object ∈ batch, _ := fun object member =>
    exists_columnsOf.mp ((accepted.columned.exists_incoming (members object member)).imp
      fun columns both => both.2)
  exact ⟨accepted.size,
    fun object member =>
      wellShaped_of_collectOwners accepted.collected object (members object member),
    fun object member => (valid object member).1, fun object member => (valid object member).2,
    fun object member => accepted.fits _
      ((ownersOf_batch accepted.collected).there object (members object member)),
    fun object member => accepted.checked object (members object member)⟩

omit [DecidableEq ν] in
theorem Accepted.admits (accepted : Accepted rules store batch objects owners incoming) :
    Admits rules store batch := by
  have members : ∀ object ∈ batch, object ∈ objects := fun object member =>
    (mem_distinctObjects accepted.made).mpr member
  have ownersOf := ownersOf_batch accepted.collected
  refine ⟨(distinctObjects_eq_ok.mp accepted.made).1, ?_, ?_, ?_⟩
  · intro left leftMember right rightMember same
    have leftOwner := ownersOf.there left (members left leftMember)
    have rightOwner := ownersOf.there right (members right rightMember)
    exact congrArg Prod.snd
      (List.inj_on_of_nodup_map ownersOf.distinct leftOwner rightOwner same)
  · intro object member row inside same
    exact accepted.known _ (ownersOf.there object (members object member)) row inside same
  · intro object member row inside same
    obtain ⟨columns, found, made⟩ := accepted.columned.exists_incoming (members object member)
    obtain ⟨kind, equal⟩ := accepted.agree _ found row inside same
    cases complete : row.metadataComplete with
    | false => exact .inl ⟨rfl, kind⟩
    | true =>
        refine .inr ⟨rfl, kind, ?_, accepted.kept _ found row inside same complete⟩
        rw [equal complete]
        exact made

omit [DecidableEq ν] in
theorem exists_accepted (writable : Writable rules store batch)
    (admits : Admits rules store batch) :
    ∃ objects owners incoming, Accepted rules store batch objects owners incoming := by
  obtain ⟨objects, made⟩ : ∃ objects, distinctObjects batch = .ok objects :=
    ⟨_, distinctObjects_eq_ok.mpr ⟨admits.objects, rfl⟩⟩
  have members : ∀ object ∈ objects, object ∈ batch := fun object member =>
    (mem_distinctObjects made).mp member
  obtain ⟨owners, collected⟩ : ∃ owners, collectOwners [] objects = .ok owners :=
    exists_collectOwners (fun object member => writable.shape object (members object member))
      (by simp) fun left leftMember right rightMember =>
        admits.owners left (members left leftMember) right (members right rightMember)
  obtain ⟨incoming, columned⟩ : ∃ incoming, Columned rules objects incoming :=
    exists_columned.mpr fun object member => exists_columnsOf.mpr
      ⟨writable.texts object (members object member),
        writable.numbers object (members object member)⟩
  have origin : ∀ found ∈ incoming, found.1 ∈ batch := fun found member =>
    members found.1 (columned.mem_objects member)
  refine ⟨objects, owners, incoming, writable.size, made, collected, ?_, ?_, columned, ?_,
    fun object member => writable.checked object (members object member), ?_⟩
  · intro owner member
    rcases (ownersOf_batch collected).only owner member with none | ⟨object, there, rfl⟩
    · exact absurd none List.not_mem_nil
    · exact writable.addresses object (members object there)
  · intro owner member row inside same
    rcases (ownersOf_batch collected).only owner member with none | ⟨object, there, rfl⟩
    · exact absurd none List.not_mem_nil
    · exact admits.known object (members object there) row inside same
  · intro found member row inside same
    rcases admits.stored found.1 (origin found member) row inside same with
      ⟨incomplete, kind⟩ | ⟨-, kind, columns, -⟩
    · refine ⟨kind, fun complete => ?_⟩
      rw [complete] at incomplete
      contradiction
    · refine ⟨kind, fun _ => ?_⟩
      exact Except.ok.inj (columns.symm.trans (columned.columns found member))
  · intro found member row inside same complete
    rcases admits.stored found.1 (origin found member) row inside same with
      ⟨incomplete, -⟩ | ⟨-, -, -, tags⟩
    · rw [complete] at incomplete
      contradiction
    · exact tags

/-- The tags of a batch are in the dictionaries, and their keys are found there. -/
def KeysThere (dictionaryKeys : Option (Dictionary × Dictionary)) (store : ObjectStore ν)
    (objects : List ObjectMetadata) : Prop :=
  ∀ rowed : ObjectStore ν, rowed.Sound → rowed.names = store.names → rowed.values = store.values →
    ∃ tagKeys, keysOfTags dictionaryKeys objects rowed = .ok (tagKeys, rowed) ∧
      TagsResolved store objects tagKeys store.names store.values

omit [DecidableEq ν] in
theorem KeysThere.keysOfTags (there : KeysThere dictionaryKeys store objects) :
    KeysOfTags dictionaryKeys store objects := by
  intro rowed rowedSound sameNames sameValues
  obtain ⟨tagKeys, found, resolved⟩ := there rowed rowedSound sameNames sameValues
  refine ⟨tagKeys, store.names, store.values, ?_, resolved⟩
  rw [found, ← sameNames, ← sameValues]
  rfl

omit [DecidableEq ν] in
theorem keysThere_none
    (there : ∀ object ∈ objects, ∀ tag ∈ object.tags,
      tag.1 ∈ store.names.rows.map Prod.snd ∧ tag.2 ∈ store.values.rows.map Prod.snd) :
    KeysThere none store objects := by
  intro rowed rowedSound sameNames sameValues
  rw [← sameNames, ← sameValues] at there
  obtain ⟨tagKeys, found, resolved⟩ := exists_resolveTags_of_there rowedSound there
  rw [sameNames, sameValues] at resolved
  exact ⟨tagKeys, found, resolved.nameSound, resolved.valueSound, List.prefix_rfl, List.prefix_rfl,
    resolved.keyed⟩

omit [DecidableEq ν] in
theorem keysThere_some {tagKeys : Dictionary × Dictionary} (nameSound : store.names.Sound)
    (valueSound : store.values.Sound)
    (keyed : ∀ object ∈ objects, Keyed tagKeys store.names.rows store.values.rows object.tags) :
    KeysThere (some tagKeys) store objects :=
  fun _ _ _ _ => ⟨tagKeys, rfl, nameSound, valueSound, List.prefix_rfl, List.prefix_rfl, keyed⟩

omit [DecidableEq ν] in
theorem keysOfTags_none
    (nameRoom : store.names.next + (objects.flatMap ObjectMetadata.tags).length ≤ 2 ^ 63)
    (valueRoom : store.values.next + (objects.flatMap ObjectMetadata.tags).length ≤ 2 ^ 63) :
    KeysOfTags none store objects := by
  intro rowed rowedSound sameNames sameValues
  rw [← sameNames] at nameRoom
  rw [← sameValues] at valueRoom
  obtain ⟨tagKeys, names, values, found, resolved⟩ :=
    exists_resolveTags rowedSound nameRoom valueRoom
  refine ⟨tagKeys, names, values, found, resolved.nameSound, resolved.valueSound, ?_, ?_,
    resolved.keyed⟩
  · rw [← sameNames]
    exact resolved.moreNames
  · rw [← sameValues]
    exact resolved.moreValues

/-- The tables hold a batch: its owners, its rows and its tags. -/
structure HoldsBatch (store : ObjectStore ν) (objects : List ObjectMetadata)
    (owners : List (Bytes × Bytes)) (incoming : List (Incoming ν)) : Prop where
  owners : ∀ owner ∈ owners, (owner.1, some owner.2) ∈ store.owners
  rows : Holds store incoming
  tags : ∀ object ∈ objects, ∀ tag ∈ object.tags,
    tag.1 ∈ store.names.rows.map Prod.snd ∧ tag.2 ∈ store.values.rows.map Prod.snd

/-- A batch that the tables hold is written again with the same keys, and nothing changes. -/
theorem writeObjectsWithKeys_again (some : batch ≠ []) (sound : store.Sound)
    (made : distinctObjects batch = .ok objects) (collected : collectOwners [] objects = .ok owners)
    (size : batch.length ≤ maxBundleBatchSize) (columned : Columned rules objects incoming)
    (holds : HoldsBatch store objects owners incoming)
    (there : KeysThere dictionaryKeys store objects) :
    writeObjectsWithKeys rules now batch dictionaryKeys store =
      .ok (matchRows incoming store, store) := by
  have rowOf : ∀ object ∈ objects, ∃ row ∈ store.objects, row.id = object.id ∧
      row.metadataComplete = true := by
    intro object member
    obtain ⟨columns, found, -⟩ := columned.exists_incoming member
    obtain ⟨row, inside, matched, -⟩ := holds.rows _ found
    exact ⟨row, inside, matched.1, matched.2.1⟩
  have apart := (ownersOf_batch collected).distinct
  have sameOwners : withOwners owners store = store := by
    rw [withOwners, (ownersInserted_foldl sound.owners apart).same holds.owners]
  have accepted : Accepted rules store batch objects owners incoming := by
    refine ⟨size, made, collected, ?_, ?_, columned, holds.rows.agrees sound, ?_,
      holds.rows.tagsKept sound⟩
    · intro owner member absent
      exact absurd rfl (absent _ (holds.owners owner member))
    · intro owner member row inside same
      have equal := List.inj_on_of_nodup_map sound.owners inside (holds.owners owner member) same
      exact .inr (by rw [equal])
    · intro object member incomplete
      obtain ⟨row, inside, same, complete⟩ := rowOf object member
      rw [incomplete row inside same] at complete
      contradiction
  have room : ∀ others others', distinctObjects batch = .ok others →
      Columned rules others others' →
        store.next + (missingObjects others' store).length ≤ 2 ^ 63 := by
    intro others others' otherMade otherColumned
    obtain rfl := Except.ok.inj (made.symm.trans otherMade)
    have none : missingObjects others' store = [] := by
      refine List.filter_eq_nil_iff.mpr fun found member missing => ?_
      obtain ⟨row, inside, same, -⟩ := rowOf found.1 (otherColumned.mem_objects member)
      exact isMissing_eq_true.mp missing row inside same
    rw [none]
    exact sound.bound
  have rowed : withRows now incoming (withOwners owners store) = store := by
    rw [sameOwners, holds.rows.withRows_eq sound]
  obtain ⟨tagKeys, found, resolved⟩ := there store sound rfl rfl
  refine (writeObjectsWithKeys_iff some sound room fun others otherMade => ?_).mpr
    ⟨objects, owners, incoming, accepted, tagKeys, store.names, store.values, resolved, ?_, ?_, ?_⟩
  · obtain rfl := Except.ok.inj (made.symm.trans otherMade)
    exact there.keysOfTags
  · rw [rowed]
    exact found
  · rw [rowed]
  · rw [sameOwners]
    exact (holds.rows.afterBatch_eq sound).symm

section After

variable {tagKeys : Dictionary × Dictionary} {names values : TagDictionary} (sound : store.Sound)
  (accepted : Accepted rules store batch objects owners incoming)
  (room : store.next + (missingObjects incoming store).length ≤ 2 ^ 63)
  (resolved : TagsResolved store objects tagKeys names values)

include sound accepted room resolved

omit [DecidableEq ν] room resolved in
theorem Accepted.soundOwners : (withOwners owners store).Sound :=
  sound.withOwners
    (ownersInserted_foldl sound.owners (ownersOf_batch accepted.collected).distinct).distinct

theorem Accepted.soundAfter :
    (afterBatch now incoming names values (withOwners owners store)).Sound :=
  sound_afterBatch (accepted.soundOwners sound) (ids_of_columned accepted.made accepted.columned)
    accepted.agree room resolved.withOwners

theorem Accepted.holdsBatch :
    HoldsBatch (afterBatch now incoming names values (withOwners owners store)) objects owners
      incoming where
  owners := (ownersInserted_foldl sound.owners
    (ownersOf_batch accepted.collected).distinct).there accepted.known
  rows := fun _ member => storedTags_afterBatch (accepted.soundOwners sound)
    (ids_of_columned accepted.made accepted.columned) accepted.agree room resolved.withOwners
    accepted.columned.objects accepted.kept member
  tags := by
    intro object member tag inside
    obtain ⟨⟨nameKey, -, name⟩, valueKey, -, value⟩ := resolved.keyed object member tag inside
    exact ⟨List.mem_map_of_mem ((keyOf_eq_some resolved.nameSound.values).mp name),
      List.mem_map_of_mem ((keyOf_eq_some resolved.valueSound.values).mp value)⟩

end After

/-- What a batch that is written leaves. -/
structure Admitted (rules : ColumnRules ν) (store after : ObjectStore ν)
    (batch : List ObjectMetadata) (keys : List Nat) : Prop where
  sound : after.Sound
  objects : ∀ object ∈ batch, ∃ row ∈ after.objects, row.id = object.id ∧ row.kind = object.kind ∧
    row.metadataComplete = true ∧ columnsOf rules object = .ok row.columns ∧
      after.storedTags row.key = object.tags
  owners : ∀ object ∈ batch, (object.ownerAddress, some object.ownerPublicKey) ∈ after.owners
  unchanged : ∀ row ∈ store.objects, row.metadataComplete = true →
    row ∈ after.objects ∧ after.storedTags row.key = store.storedTags row.key
  keys : ∃ objects, distinctObjects batch = .ok objects ∧ List.Forall₂ (fun object key =>
    ∃ row ∈ after.objects, row.key = key ∧ row.id = object.id) objects keys

/-- What is left by a batch that is accepted. -/
theorem Accepted.admitted {tagKeys : Dictionary × Dictionary} {names values : TagDictionary}
    (sound : store.Sound) (accepted : Accepted rules store batch objects owners incoming)
    (room : store.next + (missingObjects incoming store).length ≤ 2 ^ 63)
    (resolved : TagsResolved store objects tagKeys names values) :
    Admitted rules store (afterBatch now incoming names values (withOwners owners store)) batch
      (matchRows incoming (withRows now incoming (withOwners owners store))) := by
  have holds := @Accepted.holdsBatch _ _ _ _ _ _ _ _ now _ _ _ sound accepted room resolved
  have ids := ids_of_columned accepted.made accepted.columned
  refine ⟨accepted.soundAfter sound room resolved, ?_, ?_, ?_, objects, accepted.made, ?_⟩
  · intro object member
    obtain ⟨columns, found, made⟩ :=
      accepted.columned.exists_incoming ((mem_distinctObjects accepted.made).mpr member)
    obtain ⟨row, inside, matched, tags⟩ := holds.rows _ found
    refine ⟨row, inside, matched.1, matched.2.2.1, matched.2.1, ?_, tags⟩
    rw [matched.2.2.2]
    exact made
  · intro object member
    exact holds.owners _ ((ownersOf_batch accepted.collected).there object
      ((mem_distinctObjects accepted.made).mpr member))
  · intro row inside complete
    exact mem_afterBatch_of_complete (accepted.soundOwners sound) ids accepted.agree room
      resolved.withOwners inside complete
  · have aligned := @forall₂_matchRows _ _ _ now _ (accepted.soundOwners sound) ids accepted.agree
    rw [← accepted.columned.objects, List.forall₂_map_left_iff]
    refine aligned.imp fun found key related => ?_
    obtain ⟨row, inside, same, matched⟩ := related
    exact ⟨row, inside, same, matched.1⟩

end Batch

section Results

variable [DecidableEq ν] {rules : ColumnRules ν} {store after : ObjectStore ν}
  {batch objects : List ObjectMetadata} {keys : List Nat} {now : Nat}

theorem length_flatMap_tags (made : distinctObjects batch = .ok objects) :
    (objects.flatMap ObjectMetadata.tags).length ≤ (batch.flatMap ObjectMetadata.tags).length := by
  obtain ⟨-, rfl⟩ := distinctObjects_eq_ok.mp made
  have kept := ((List.destutter_sublist (Batches.Differ objectOrder)
    (Batches.sortBy objectOrder batch)).flatMap ObjectMetadata.tags).length_le
  have sorted := ((List.perm_insertionSort (fun left right : ObjectMetadata =>
    objectOrder left ≤ objectOrder right) batch).flatMap_right ObjectMetadata.tags).length_eq
  exact kept.trans sorted.le

omit [DecidableEq ν] in
theorem room_missing (room : store.next + batch.length ≤ 2 ^ 63) (objects : List ObjectMetadata)
    (incoming : List (Incoming ν)) (made : distinctObjects batch = .ok objects)
    (columned : Columned rules objects incoming) :
    store.next + (missingObjects incoming store).length ≤ 2 ^ 63 := by
  have shorter := List.length_filter_le (isMissing store) incoming
  have same : incoming.length = objects.length := by rw [← columned.objects, List.length_map]
  have distinct := length_distinctObjects made
  rw [missingObjects]
  omega

/-- A batch whose tags get keys is written exactly when the columns can hold it and it agrees with
itself and with what is stored; what is left is what it brought, and it can be written again. -/
theorem writeObjectsWithKeys_spec {dictionaryKeys : Option (Dictionary × Dictionary)}
    (sound : store.Sound) (some : batch ≠ []) (room : store.next + batch.length ≤ 2 ^ 63)
    (resolves : ∀ objects, distinctObjects batch = .ok objects →
      KeysOfTags dictionaryKeys store objects) :
    ((∃ keys after, writeObjectsWithKeys rules now batch dictionaryKeys store =
        .ok (keys, after)) ↔ Writable rules store batch ∧ Admits rules store batch) ∧
      ∀ keys after,
        writeObjectsWithKeys rules now batch dictionaryKeys store = .ok (keys, after) →
        Admitted rules store after batch keys ∧
          ∀ later, writeObjects rules later batch after = .ok (keys, after) := by
  have missing := @room_missing _ rules store batch room
  have iff : ∀ keys after, _ := fun keys after =>
    @writeObjectsWithKeys_iff _ _ rules store after batch dictionaryKeys now keys some sound
      missing resolves
  constructor
  · constructor
    · rintro ⟨keys, after, written⟩
      obtain ⟨objects, owners, incoming, accepted, -⟩ := (iff keys after).mp written
      exact ⟨accepted.writable, accepted.admits⟩
    · rintro ⟨writable, admits⟩
      obtain ⟨objects, owners, incoming, accepted⟩ := exists_accepted writable admits
      have fits := missing objects incoming accepted.made accepted.columned
      obtain ⟨tagKeys, names, values, found, resolved⟩ := resolves objects accepted.made
        (withRows now incoming (withOwners owners store))
        ((accepted.soundOwners sound).withRows
          (ids_of_columned accepted.made accepted.columned) fits) rfl rfl
      exact ⟨_, _, (iff _ _).mpr ⟨objects, owners, incoming, accepted, tagKeys, names, values,
        resolved, found, rfl, rfl⟩⟩
  · intro keys after written
    obtain ⟨objects, owners, incoming, accepted, tagKeys, names, values, resolved, -, rfl, rfl⟩ :=
      (iff keys after).mp written
    have fits := missing objects incoming accepted.made accepted.columned
    refine ⟨accepted.admitted sound fits resolved, fun later => ?_⟩
    have holds := @Accepted.holdsBatch _ _ _ _ _ _ _ _ now _ _ _ sound accepted fits resolved
    exact writeObjectsWithKeys_again some (accepted.soundAfter sound fits resolved) accepted.made
      accepted.collected accepted.size accepted.columned holds (keysThere_none holds.tags)

omit [DecidableEq ν] in
/-- An empty batch is held by any tables. -/
theorem writable_nil : Writable rules store [] ∧ Admits rules store [] := by
  refine ⟨⟨by simp, ?_, ?_, ?_, ?_, ?_⟩, ?_, ?_, ?_, ?_⟩ <;> simp

omit [DecidableEq ν] in
theorem admitted_nil (sound : store.Sound) : Admitted rules store store [] [] := by
  refine ⟨sound, by simp, by simp, fun row inside _ => ⟨inside, rfl⟩, [], ?_, .nil⟩
  exact distinctObjects_eq_ok.mpr ⟨by simp, rfl⟩

/-- A batch is written exactly when the columns can hold it and it agrees with itself and with what
is stored. -/
theorem writeObjects_spec (sound : store.Sound) (room : Room store batch) :
    ((∃ keys after, writeObjects rules now batch store = .ok (keys, after)) ↔
        Writable rules store batch ∧ Admits rules store batch) ∧
      ∀ keys after, writeObjects rules now batch store = .ok (keys, after) →
        Admitted rules store after batch keys ∧
          ∀ later, writeObjects rules later batch after = .ok (keys, after) := by
  by_cases some : batch = []
  · subst some
    refine ⟨iff_of_true ⟨[], store, rfl⟩ writable_nil, fun keys after written => ?_⟩
    obtain ⟨rfl, rfl⟩ := Prod.mk.inj (Except.ok.inj written)
    exact ⟨admitted_nil sound, fun later => rfl⟩
  · refine writeObjectsWithKeys_spec sound some room.objects fun objects made => ?_
    have shorter := length_flatMap_tags made
    have names := room.names
    have values := room.values
    exact keysOfTags_none (by omega) (by omega)

omit [DecidableEq ν] in
/-- Larger dictionaries change neither what can be written nor what agrees. -/
theorem admits_withDictionaries {names values : TagDictionary}
    (same : ∀ key, (store.withDictionaries names values).storedTags key = store.storedTags key) :
    Writable rules (store.withDictionaries names values) batch ∧
        Admits rules (store.withDictionaries names values) batch ↔
      Writable rules store batch ∧ Admits rules store batch := by
  constructor
  · rintro ⟨writable, admits⟩
    refine ⟨⟨writable.size, writable.shape, writable.texts, writable.numbers, writable.addresses,
      writable.checked⟩, admits.objects, admits.owners, admits.known,
      fun object member row inside equal => ?_⟩
    rw [← same]
    exact admits.stored object member row inside equal
  · rintro ⟨writable, admits⟩
    refine ⟨⟨writable.size, writable.shape, writable.texts, writable.numbers, writable.addresses,
      writable.checked⟩, admits.objects, admits.owners, admits.known,
      fun object member row inside equal => ?_⟩
    rw [same]
    exact admits.stored object member row inside equal

/-- What recording a batch comes to: the outcome, and what it leaves in either case. -/
theorem recordObjects_spec (sound : store.Sound) (room : Room store batch) :
    ((recordObjects rules now batch store).1 = .ok () ↔
        Writable rules store batch ∧ Admits rules store batch) ∧
      (∀ after, recordObjects rules now batch store = (.ok (), after) →
        ∃ keys, Admitted rules store after batch keys ∧
          ∀ later, writeObjects rules later batch after = .ok (keys, after)) ∧
      ∀ message after, recordObjects rules now batch store = (.error message, after) →
        after.Sound ∧ after.owners = store.owners ∧ after.objects = store.objects ∧
          after.objectTags = store.objectTags ∧
            ∀ key, after.storedTags key = store.storedTags key := by
  by_cases some : batch = []
  · subst some
    refine ⟨iff_of_true rfl writable_nil, fun after recorded => ?_,
      fun message after recorded => ?_⟩
    · obtain ⟨-, rfl⟩ := Prod.mk.inj recorded
      exact ⟨[], admitted_nil sound, fun later => rfl⟩
    · have failed := congrArg Prod.fst recorded
      contradiction
  · obtain ⟨tagKeys, names, values, found, resolved⟩ :=
      exists_resolveTags sound room.names room.values
    have full : batch.isEmpty = false := by rwa [List.isEmpty_eq_false_iff]
    have interned := sound.withDictionaries resolved.nameSound resolved.valueSound
      resolved.moreNames resolved.moreValues
    have same := sound.storedTags_withDictionaries resolved.nameSound resolved.valueSound
      resolved.moreNames resolved.moreValues
    have keyed : ∀ objects, distinctObjects batch = .ok objects →
        KeysOfTags (.some tagKeys) (store.withDictionaries names values) objects :=
      fun objects made => (keysThere_some resolved.nameSound resolved.valueSound
        fun object member =>
          resolved.keyed object ((mem_distinctObjects made).mp member)).keysOfTags
    obtain ⟨iff, leaves⟩ := @writeObjectsWithKeys_spec _ _ rules _ batch now (.some tagKeys)
      interned some room.objects keyed
    rw [admits_withDictionaries same] at iff
    rw [recordObjects, full]
    simp only [Bool.false_eq_true, if_false, found]
    cases written : writeObjectsWithKeys rules now batch (.some tagKeys)
        (store.withDictionaries names values) with
    | error message =>
        refine ⟨iff_of_false (by simp) fun both => ?_, fun after recorded => ?_,
          fun text after recorded => ?_⟩
        · obtain ⟨keys, after, other⟩ := iff.mpr both
          rw [written] at other
          contradiction
        · have failed := congrArg Prod.fst recorded
          contradiction
        · obtain ⟨-, rfl⟩ := Prod.mk.inj recorded
          exact ⟨interned, rfl, rfl, rfl, same⟩
    | ok result =>
        obtain ⟨keys, tables⟩ := result
        refine ⟨iff_of_true rfl (iff.mp ⟨keys, tables, written⟩), fun after recorded => ?_,
          fun message after recorded => ?_⟩
        · obtain ⟨-, rfl⟩ := Prod.mk.inj recorded
          obtain ⟨admitted, again⟩ := leaves keys tables written
          refine ⟨keys, ⟨admitted.sound, admitted.objects, admitted.owners,
            fun row inside complete => ?_, admitted.keys⟩, again⟩
          rw [← same]
          exact admitted.unchanged row inside complete
        · have failed := congrArg Prod.fst recorded
          contradiction

/-- A row of an object whose metadata is not known yet. -/
def placedRow (key : Nat) (id : Bytes) (kind : Int) : StoredObject ν where
  key := key
  id := id
  kind := kind
  metadataComplete := false
  columns := ⟨none, none, none, none, none, none, none, none, none, none, none, none, none⟩
  indexedAt := none

/-- The steps of the tables: an object is placed without its metadata, a batch is written in a
transaction that commits, or a batch is recorded, whether or not it is refused. -/
inductive ObjectStep (rules : ColumnRules ν) : ObjectStore ν → ObjectStore ν → Prop where
  | place (store : ObjectStore ν) (id : Bytes) (kind : Int)
      (missing : ∀ row ∈ store.objects, row.id ≠ id) (room : store.next + 1 ≤ 2 ^ 63) :
      ObjectStep rules store
        { store with objects := store.objects ++ [placedRow store.next id kind]
                     next := store.next + 1 }
  | write (store after : ObjectStore ν) (batch : List ObjectMetadata) (now : Nat) (keys : List Nat)
      (room : Room store batch)
      (written : writeObjects rules now batch store = .ok (keys, after)) :
      ObjectStep rules store after
  | record (store : ObjectStore ν) (batch : List ObjectMetadata) (now : Nat)
      (room : Room store batch) :
      ObjectStep rules store (recordObjects rules now batch store).2

/-- What is complete stays, with its tags. -/
def Immutable (store after : ObjectStore ν) : Prop :=
  ∀ row ∈ store.objects, row.metadataComplete = true →
    row ∈ after.objects ∧ after.storedTags row.key = store.storedTags row.key

omit [DecidableEq ν] in
theorem sound_place (sound : store.Sound) {id : Bytes} {kind : Int}
    (missing : ∀ row ∈ store.objects, row.id ≠ id) (room : store.next + 1 ≤ 2 ^ 63) :
    ObjectStore.Sound
      { store with objects := store.objects ++ [placedRow store.next id kind]
                   next := store.next + 1 } where
  ids := by
    rw [List.map_append]
    refine List.nodup_append_comm.mp (List.nodup_cons.mpr ⟨?_, sound.ids⟩)
    intro there
    obtain ⟨row, inside, same⟩ := List.mem_map.mp there
    exact missing row inside same
  keys := by
    rw [List.map_append]
    refine List.nodup_append_comm.mp (List.nodup_cons.mpr ⟨?_, sound.keys⟩)
    intro there
    obtain ⟨row, inside, same⟩ := List.mem_map.mp there
    exact Nat.ne_of_lt (sound.below row inside) same
  below := by
    intro row member
    rcases List.mem_append.mp member with old | new
    · exact Nat.lt_succ_of_lt (sound.below row old)
    · rw [List.mem_singleton.mp new]
      exact Nat.lt_succ_self _
  bound := room
  owners := sound.owners
  names := sound.names
  values := sound.values
  rows := sound.rows
  packed := by
    intro row member
    obtain ⟨⟨object, inside, same⟩, tags⟩ := sound.packed row member
    exact ⟨⟨object, List.mem_append_left _ inside, same⟩, tags⟩

theorem ObjectStep.preserves (step : ObjectStep rules store after) (sound : store.Sound) :
    after.Sound ∧ Immutable store after := by
  cases step with
  | place id kind missing room =>
      exact ⟨sound_place sound missing room,
        fun row inside _ => ⟨List.mem_append_left _ inside, rfl⟩⟩
  | write _ batch now keys room written =>
      obtain ⟨admitted, -⟩ := (writeObjects_spec sound room).2 _ _ written
      exact ⟨admitted.sound, admitted.unchanged⟩
  | record batch now room =>
      obtain ⟨-, left, refused⟩ := @recordObjects_spec _ _ rules _ _ now sound room
      cases outcome : recordObjects rules now batch store with
      | mk result tables =>
          cases result with
          | ok value =>
              obtain ⟨keys, admitted, -⟩ := left tables outcome
              exact ⟨admitted.sound, admitted.unchanged⟩
          | error message =>
              obtain ⟨after, -, objects, -, tags⟩ := refused message tables outcome
              exact ⟨after, fun row inside _ => ⟨objects ▸ inside, tags row.key⟩⟩

/-- Over any run, what is complete stays as it is, with its tags. -/
theorem immutable_run (run : Relation.ReflTransGen (ObjectStep rules) store after)
    (sound : store.Sound) : after.Sound ∧ Immutable store after := by
  induction run with
  | refl => exact ⟨sound, fun row inside _ => ⟨inside, rfl⟩⟩
  | tail _ step induction =>
      obtain ⟨middle, kept⟩ := induction
      obtain ⟨later, stays⟩ := step.preserves middle
      refine ⟨later, fun row inside complete => ?_⟩
      obtain ⟨there, tags⟩ := kept row inside complete
      obtain ⟨here, same⟩ := stays row there complete
      exact ⟨here, same.trans tags⟩

/-- Immutable objects are admitted exactly when the tables can hold the batch and it agrees with
itself and with what is stored; what it brought is then stored, what was complete is unchanged, the
batch can be written again, and a batch that is refused leaves all rows as they were.  Over any run
what is complete stays as it is. -/
theorem immutable_admission (sound : store.Sound) (room : Room store batch) :
    ((∃ keys after, writeObjects rules now batch store = .ok (keys, after)) ↔
        Writable rules store batch ∧ Admits rules store batch) ∧
      (∀ keys after, writeObjects rules now batch store = .ok (keys, after) →
        Admitted rules store after batch keys ∧
          ∀ later, writeObjects rules later batch after = .ok (keys, after)) ∧
      ((recordObjects rules now batch store).1 = .ok () ↔
        Writable rules store batch ∧ Admits rules store batch) ∧
      (∀ after, recordObjects rules now batch store = (.ok (), after) →
        ∃ keys, Admitted rules store after batch keys ∧
          ∀ later, writeObjects rules later batch after = .ok (keys, after)) ∧
      (∀ message after, recordObjects rules now batch store = (.error message, after) →
        after.Sound ∧ after.owners = store.owners ∧ after.objects = store.objects ∧
          after.objectTags = store.objectTags ∧
            ∀ key, after.storedTags key = store.storedTags key) ∧
      ∀ later, Relation.ReflTransGen (ObjectStep rules) store later →
        later.Sound ∧ Immutable store later := by
  obtain ⟨iff, leaves⟩ := @writeObjects_spec _ _ rules _ _ now sound room
  obtain ⟨recorded, left, refused⟩ := @recordObjects_spec _ _ rules _ _ now sound room
  exact ⟨iff, leaves, recorded, left, refused, fun later run => immutable_run run sound⟩

/-- The tables before anything is written. -/
def emptyStore : ObjectStore ν := ⟨[], [], ⟨[], 1⟩, ⟨[], 1⟩, [], 1⟩

omit [DecidableEq ν] in
theorem sound_emptyStore : (emptyStore : ObjectStore ν).Sound := by
  refine ⟨?_, ?_, ?_, ?_, ?_, ⟨?_, ?_, ?_, ?_⟩, ⟨?_, ?_, ?_, ?_⟩, ?_, ?_⟩ <;> simp [emptyStore]

end Results

/-- Whole numbers in decimal digits, and index entries that are not compressed. -/
def decimalRules : ColumnRules Nat where
  read text :=
    if text ≠ "" ∧ text.toList.all Char.isDigit = true then
      some (text.toList.foldl (fun value digit => 10 * value + (digit.toNat - 48)) 0)
    else none
  checks _ := true
  fitsIndex bytes := decide (bytes.length + 12 ≤ 2704)
  fitsKeyedIndex bytes := decide (bytes.length + 20 ≤ 2704)

/-- An object with tags. -/
def taggedObject (byte : UInt8) (kind : Int) (tags : List (Bytes × Bytes)) : ObjectMetadata where
  id := List.replicate 32 byte
  kind := kind
  signature := [1]
  anchor := []
  ownerAddress := [2]
  ownerPublicKey := [3]
  target := []
  dataSize := 5
  contentType := some "text/plain"
  contentEncoding := none
  signatureType := 1
  format := some 2
  quantity := some "12"
  reward := none
  denomination := none
  dataRoot := none
  tags := tags

/-- An object of an unknown kind agrees with empty tables, and is refused. -/
theorem not_immutable_admission_of_kind :
    (emptyStore : ObjectStore Nat).Sound ∧
      Admits decimalRules emptyStore [taggedObject 1 2 []] ∧
      ¬∃ keys after, writeObjects decimalRules 0 [taggedObject 1 2 []] emptyStore =
        .ok (keys, after) := by
  refine ⟨sound_emptyStore, ⟨by decide, by decide, ?_, ?_⟩, ?_⟩
  · intro object member row inside
    exact absurd inside List.not_mem_nil
  · intro object member row inside
    exact absurd inside List.not_mem_nil
  · rintro ⟨keys, after, written⟩
    have refused : writeObjects decimalRules 0 [taggedObject 1 2 []] emptyStore =
        .error "invalid object kind" := by rfl
    rw [refused] at written
    contradiction

/-- A batch in which an object is repeated. -/
def taggedBatch : List ObjectMetadata :=
  [taggedObject 2 1 [([7], [8])], taggedObject 1 0 [([7], [9]), ([7], [8])],
    taggedObject 2 1 [([7], [8])]]

theorem immutable_admission_sample :
    ∃ keys after, writeObjects decimalRules 5 taggedBatch emptyStore = .ok (keys, after) ∧
      Admitted decimalRules emptyStore after taggedBatch keys ∧
        ∀ later, writeObjects decimalRules later taggedBatch after = .ok (keys, after) := by
  have room : Room (emptyStore : ObjectStore Nat) taggedBatch := ⟨by decide, by decide, by decide⟩
  obtain ⟨iff, leaves, -⟩ :=
    @immutable_admission _ _ decimalRules emptyStore taggedBatch 5 sound_emptyStore room
  have writable : Writable decimalRules emptyStore taggedBatch := by
    have numbers : ∀ object ∈ taggedBatch, object.quantity = some "12" ∧ object.reward = none := by
      decide
    have indexed : ∀ object ∈ taggedBatch, decimalRules.fitsIndex object.ownerAddress = true ∧
        decimalRules.fitsKeyedIndex object.ownerAddress = true ∧
        decimalRules.fitsKeyedIndex object.target = true := by
      decide
    refine ⟨by decide, by decide, by decide, ?_, fun object member _ => (indexed object member).1,
      fun object member _ => ⟨?_, (indexed object member).2.1, (indexed object member).2.2⟩⟩
    · rintro object member text (quantity | reward)
      · rw [(numbers object member).1] at quantity
        obtain rfl := Option.some.inj quantity
        decide
      · rw [(numbers object member).2] at reward
        contradiction
    · rw [(numbers object member).1, (numbers object member).2]
      exact ⟨rfl, rfl⟩
  have admits : Admits decimalRules emptyStore taggedBatch :=
    ⟨by decide, by decide, fun _ _ _ inside => absurd inside List.not_mem_nil,
      fun _ _ _ inside => absurd inside List.not_mem_nil⟩
  obtain ⟨keys, after, written⟩ := iff.mpr ⟨writable, admits⟩
  exact ⟨keys, after, written, leaves keys after written⟩

end ArIoGateway
