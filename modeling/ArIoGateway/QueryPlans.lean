import ArIoGateway.GraphqlQueries

/-!
# Query plans

The placements that a filter selects do not depend on the way in which the query is run.
-/

namespace ArIoGateway

open Octets

/-- What the tables guarantee: keys and identifiers are unique, a placement has the identifier of
its object, owners are stored, and no bytes have two entries among the names of tags. -/
structure GraphqlSnapshot.Valid (snapshot : GraphqlSnapshot) : Prop where
  placementKeys : (snapshot.placements.map GraphqlPlacement.objectKey).Nodup
  objectIds : (snapshot.objects.map GraphqlObject.id).Nodup
  placed : ∀ placement ∈ snapshot.placements,
    ∃ object, snapshot.objectAt placement.objectKey = some object ∧ object.id = placement.id
  owned : ∀ object ∈ snapshot.objects, ∀ metadata ∈ object.metadata,
    (snapshot.ownerAt metadata.ownerAddress).isSome = true
  heights : (snapshot.canonicalBlocks.map CanonicalBlock.height).Nodup
  names : (snapshot.tags.names.map Prod.snd).Nodup

theorem objectAt_eq_some {snapshot : GraphqlSnapshot} {key : Nat} {object : GraphqlObject}
    (found : snapshot.objectAt key = some object) :
    object ∈ snapshot.objects ∧ object.key = key := by
  unfold GraphqlSnapshot.objectAt at found
  exact ⟨List.mem_of_find?_eq_some found, by simpa using List.find?_some found⟩

section Order

variable {α κ : Type} [LinearOrder κ] {rank : α → κ}

instance (sort : SortOrder) : Std.Total (sort.ordered rank) where
  total first second := by
    cases sort with
    | heightAsc => exact le_total (rank first) (rank second)
    | heightDesc => exact le_total (rank second) (rank first)

instance (sort : SortOrder) : IsTrans α (sort.ordered rank) where
  trans first second third earlier later := by
    cases sort with
    | heightAsc => exact le_trans (show rank first ≤ rank second from earlier) later
    | heightDesc => exact le_trans (show rank third ≤ rank second from later) earlier

theorem rank_eq_of_ordered {sort : SortOrder} {first second : α}
    (earlier : sort.ordered rank first second) (later : sort.ordered rank second first) :
    rank first = rank second := by
  cases sort with
  | heightAsc => exact le_antisymm (show rank first ≤ rank second from earlier) later
  | heightDesc => exact le_antisymm (show rank first ≤ rank second from later) earlier

/-- The comparison with a cursor leaves the rows that are behind it. -/
theorem comparison_eq (sort : SortOrder) (row last : α) :
    sort.comparison (rank row) (rank last) = decide (¬ sort.ordered rank row last) := by
  cases sort <;> simp [SortOrder.comparison, SortOrder.ordered]

/-- Sorted rows are in strict order. -/
theorem pairwise_comparison (sort : SortOrder) {rows : List α}
    (separates : Ranking.Separates (sort.ordered rank) rows) (once : rows.Nodup) :
    (rows.insertionSort (sort.ordered rank)).Pairwise fun first second =>
      sort.comparison (rank second) (rank first) = true := by
  have same := List.perm_insertionSort (sort.ordered rank) rows
  have order := (List.pairwise_insertionSort (sort.ordered rank) rows).and
    (same.nodup_iff.mpr once)
  refine order.imp_of_mem fun {first second} firstMember secondMember ordered => ?_
  rw [comparison_eq, decide_eq_true_eq]
  exact fun back => ordered.2 (separates first (same.subset firstMember) second
    (same.subset secondMember) ordered.1 back)

end Order

theorem id_eq_of_rank {first second : GraphqlPlacement} (same : first.rank = second.rank) :
    first.id = second.id := by
  have numbers : ofBigEndian first.id.val = ofBigEndian second.id.val := by
    simpa [GraphqlPlacement.rank, PlacementRank.of] using
      congrArg (fun rank => (ofLex (ofLex (ofLex rank).2).2).2) same
  exact Subtype.ext (ofBigEndian_inj (by rw [first.id.property, second.id.property]) numbers)

/-- No two placements are at the same place. -/
theorem GraphqlSnapshot.Valid.separates {snapshot : GraphqlSnapshot} (valid : snapshot.Valid)
    (sort : SortOrder) : Ranking.Separates sort.before snapshot.placements := by
  intro first firstMember second secondMember earlier later
  have sameId := id_eq_of_rank (rank_eq_of_ordered earlier later)
  obtain ⟨left, leftFound, leftId⟩ := valid.placed first firstMember
  obtain ⟨right, rightFound, rightId⟩ := valid.placed second secondMember
  have sameObject : left = right :=
    List.inj_on_of_nodup_map valid.objectIds (objectAt_eq_some leftFound).1
      (objectAt_eq_some rightFound).1 (by rw [leftId, rightId, sameId])
  exact List.inj_on_of_nodup_map valid.placementKeys firstMember secondMember
    (by rw [← (objectAt_eq_some leftFound).2, ← (objectAt_eq_some rightFound).2, sameObject])

section Conditions

variable {suite : HashSuite} {snapshot : GraphqlSnapshot} {clauses : List Clause}
  {placement : GraphqlPlacement}

/-- The object of a placement with its metadata, when its block has a timestamp. -/
def Described (snapshot : GraphqlSnapshot) (placement : GraphqlPlacement) (object : GraphqlObject)
    (metadata : GraphqlMetadata) : Prop :=
  snapshot.objectAt placement.objectKey = some object ∧ object.metadata = some metadata ∧
    ((snapshot.canonicalBlockAt placement.blockHeight).bind GraphqlBlock.timestamp).isSome = true

theorem selected_eq_true_iff : selected suite snapshot clauses placement = true ↔
    ∃ object metadata, Described snapshot placement object metadata ∧
      ∀ clause ∈ clauses, clause.holds suite snapshot placement object metadata = true := by
  unfold selected Described
  constructor
  · intro chosen
    split at chosen
    · next object found =>
        split at chosen
        · next metadata complete =>
            rw [Bool.and_eq_true, List.all_eq_true] at chosen
            exact ⟨object, metadata, ⟨found, complete, chosen.1⟩, chosen.2⟩
        · cases chosen
    · cases chosen
  · rintro ⟨object, metadata, ⟨found, complete, timed⟩, holds⟩
    rw [found]
    simp only
    rw [complete]
    simp only
    rw [timed, Bool.true_and, List.all_eq_true]
    exact holds

theorem Described.unique {object other : GraphqlObject} {metadata otherMetadata : GraphqlMetadata}
    (described : Described snapshot placement object metadata)
    (again : Described snapshot placement other otherMetadata) :
    other = object ∧ otherMetadata = metadata := by
  obtain ⟨found, complete, _⟩ := described
  obtain ⟨otherFound, otherComplete, _⟩ := again
  obtain rfl := Option.some.inj (otherFound.symm.trans found)
  exact ⟨rfl, Option.some.inj (otherComplete.symm.trans complete)⟩

theorem selected_append {more : List Clause} :
    selected suite snapshot (clauses ++ more) placement = true ↔
      selected suite snapshot clauses placement = true ∧
        selected suite snapshot more placement = true := by
  simp only [selected_eq_true_iff, List.forall_mem_append]
  constructor
  · rintro ⟨object, metadata, described, first, second⟩
    exact ⟨⟨object, metadata, described, first⟩, object, metadata, described, second⟩
  · rintro ⟨⟨object, metadata, described, first⟩, other, otherMetadata, again, second⟩
    obtain ⟨rfl, rfl⟩ := described.unique again
    exact ⟨_, _, described, first, second⟩

/-- Clauses that mean the same select the same placements. -/
theorem runQuery_congr {others : List Clause} {sort : SortOrder} {limit : Nat}
    (same : ∀ placement ∈ snapshot.placements,
      selected suite snapshot clauses placement = true ↔
        selected suite snapshot others placement = true) :
    runQuery suite snapshot sort limit clauses = runQuery suite snapshot sort limit others := by
  unfold runQuery
  rw [List.filter_congr fun placement member => Bool.eq_iff_iff.mpr (same placement member)]

end Conditions

section Tags

variable {suite : HashSuite} {snapshot : GraphqlSnapshot}

/-- Whether a reference is to a tag with the name and one of the values. -/
def Refers (suite : HashSuite) (store : TagStore) (tag : TagFilter) (ref : Nat × Nat) : Prop :=
  ref.1 ∈ nameKeys suite store.names tag.name ∧
    ref.2 ∈ tag.values.flatMap (valueKeys suite store.values)

theorem holds_tagged {placement : GraphqlPlacement} {object : GraphqlObject}
    {metadata : GraphqlMetadata} {tag : TagFilter} :
    (Clause.tagged tag.name tag.values).holds suite snapshot placement object metadata = true ↔
      ∃ ref ∈ snapshot.tags.readObjectTags object.key, Refers suite snapshot.tags tag ref := by
  simp [Clause.holds, Refers]

theorem mem_sortDedup {α : Type} [DecidableEq α] {le : α → α → Prop} [DecidableRel le]
    {values : List α} {value : α} : value ∈ sortDedup le values ↔ value ∈ values := by
  rw [sortDedup, List.mem_dedup, List.mem_insertionSort]

/-- A name has one key. -/
theorem nameKeys_unique {names : Dictionary} (once : (names.map Prod.snd).Nodup) {name : String}
    {key other : Nat} (found : key ∈ nameKeys suite names name)
    (again : other ∈ nameKeys suite names name) : other = key := by
  simp only [nameKeys, List.mem_map, List.mem_filter, decide_eq_true_eq] at found again
  obtain ⟨row, ⟨member, _, spelled⟩, rfl⟩ := found
  obtain ⟨second, ⟨secondMember, _, secondSpelled⟩, rfl⟩ := again
  rw [List.inj_on_of_nodup_map once secondMember member (secondSpelled.trans spelled.symm)]

/-- The rows that are looked up for a tag. -/
def tagRows (suite : HashSuite) (store : TagStore) (tag : TagFilter) : List (Nat × Nat) :=
  (nameKeys suite store.names tag.name).flatMap fun name =>
    tag.values.flatMap fun value => (valueKeys suite store.values value).map fun key => (name, key)

theorem mem_tagRows {store : TagStore} {tag : TagFilter} {ref : Nat × Nat} :
    ref ∈ tagRows suite store tag ↔ Refers suite store tag ref := by
  obtain ⟨name, key⟩ := ref
  simp only [tagRows, Refers, List.mem_flatMap, List.mem_map, Prod.mk.injEq]
  constructor
  · rintro ⟨_, named, value, listed, _, valued, rfl, rfl⟩
    exact ⟨named, value, listed, valued⟩
  · rintro ⟨named, value, listed, valued⟩
    exact ⟨_, named, value, listed, _, valued, rfl, rfl⟩

theorem tagGroups_cons {tag : TagFilter} {tags : List TagFilter} :
    tagGroups suite snapshot (tag :: tags) =
      (tagRows suite snapshot.tags tag).head?.bind fun first =>
        (tagGroups suite snapshot tags).map fun groups =>
          (first.1, sortDedup (· ≤ ·) ((tagRows suite snapshot.tags tag).map Prod.snd)) ::
            groups := by
  rw [tagGroups]
  unfold tagRows
  cases List.head? _ with
  | none => rfl
  | some first => cases tagGroups suite snapshot tags <;> rfl

/-- The group of a tag matches the references to it. -/
theorem matches_iff_refers {store : TagStore} (once : (store.names.map Prod.snd).Nodup)
    {tag : TagFilter} {first : Nat × Nat}
    (head : (tagRows suite store tag).head? = some first) (ref : Nat × Nat) :
    TagGroup.matches (first.1, sortDedup (· ≤ ·) ((tagRows suite store tag).map Prod.snd)) ref =
      true ↔ Refers suite store tag ref := by
  have named := (mem_tagRows.mp (List.mem_of_head? head)).1
  rw [TagGroup.matches, decide_eq_true_eq, mem_sortDedup, List.mem_map]
  constructor
  · rintro ⟨same, other, member, value⟩
    exact ⟨same ▸ named, value ▸ (mem_tagRows.mp member).2⟩
  · rintro ⟨again, valued⟩
    exact ⟨nameKeys_unique once named again, ref, mem_tagRows.mpr ⟨again, valued⟩, rfl⟩

theorem tagGroups_eq_some (once : (snapshot.tags.names.map Prod.snd).Nodup)
    {tags : List TagFilter} {groups : List TagGroup}
    (looked : tagGroups suite snapshot tags = some groups) :
    List.Forall₂ (fun tag group => ∀ ref,
      TagGroup.matches group ref = true ↔ Refers suite snapshot.tags tag ref) tags groups := by
  induction tags generalizing groups with
  | nil =>
      obtain rfl := Option.some.inj looked
      exact .nil
  | cons tag tags induction =>
      rw [tagGroups_cons, Option.bind_eq_some_iff] at looked
      obtain ⟨first, head, rest⟩ := looked
      obtain ⟨others, there, rfl⟩ := Option.map_eq_some_iff.mp rest
      exact .cons (matches_iff_refers once head) (induction there)

/-- When the look-up fails, no reference is to one of the tags. -/
theorem tagGroups_eq_none {tags : List TagFilter} (looked : tagGroups suite snapshot tags = none) :
    ∃ tag ∈ tags, ∀ ref, ¬ Refers suite snapshot.tags tag ref := by
  induction tags with
  | nil => cases looked
  | cons tag tags induction =>
      rw [tagGroups_cons] at looked
      cases head : (tagRows suite snapshot.tags tag).head? with
      | none =>
          refine ⟨tag, List.mem_cons_self, fun ref refers => ?_⟩
          have member := mem_tagRows.mpr refers
          rw [List.head?_eq_none_iff.mp head] at member
          cases member
      | some first =>
          rw [head, Option.bind_some, Option.map_eq_none_iff] at looked
          obtain ⟨other, member, absent⟩ := induction looked
          exact ⟨other, List.mem_cons_of_mem _ member, absent⟩

theorem mem_matchedTags {store : TagStore} {first : TagGroup} {others : List TagGroup} {key : Nat} :
    key ∈ matchedTags store first others ↔
      ∀ group ∈ first :: others, ∃ ref ∈ store.readObjectTags key, group.matches ref = true := by
  simp only [matchedTags, List.mem_dedup, List.mem_flatMap, List.mem_map, List.mem_filter,
    decide_eq_true_eq, List.all_eq_true, List.any_eq_true, List.forall_mem_cons]
  constructor
  · rintro ⟨row, stored, ref, ⟨member, meets, all⟩, rfl⟩
    exact ⟨⟨ref, List.mem_flatMap.mpr ⟨row, by simpa using stored, member⟩, meets⟩, all⟩
  · rintro ⟨⟨ref, member, meets⟩, all⟩
    obtain ⟨row, stored, inside⟩ := List.mem_flatMap.mp member
    rw [List.mem_filter, decide_eq_true_eq] at stored
    obtain ⟨stored, rfl⟩ := stored
    exact ⟨row, stored, ref, ⟨inside, meets, all⟩, rfl⟩

/-- Clauses with keys that were looked up mean the same as the tests of every object. -/
theorem holds_tagClauses (once : (snapshot.tags.names.map Prod.snd).Nodup) {tagFirst : Bool}
    {tags : List TagFilter} {clauses : List Clause}
    (chosen : tagClauses suite snapshot tagFirst tags = some clauses) (placement : GraphqlPlacement)
    (object : GraphqlObject) (metadata : GraphqlMetadata) :
    (∀ clause ∈ clauses, clause.holds suite snapshot placement object metadata = true) ↔
      ∀ tag ∈ tags, ∃ ref ∈ snapshot.tags.readObjectTags object.key,
        Refers suite snapshot.tags tag ref := by
  cases tagFirst with
  | false =>
      obtain rfl := Option.some.inj chosen
      simp only [List.forall_mem_map, holds_tagged]
  | true =>
      simp only [tagClauses, if_true, Option.bind_eq_bind, Option.bind_eq_some_iff] at chosen
      obtain ⟨groups, looked, chosen⟩ := chosen
      have pairs := tagGroups_eq_some once looked
      have meets : (∀ group ∈ sortDedup groupLe groups,
          ∃ ref ∈ snapshot.tags.readObjectTags object.key, TagGroup.matches group ref = true) ↔
          ∀ tag ∈ tags, ∃ ref ∈ snapshot.tags.readObjectTags object.key,
            Refers suite snapshot.tags tag ref := by
        simp only [mem_sortDedup]
        clear chosen looked
        induction pairs with
        | nil => simp
        | cons same _ induction => simp only [List.forall_mem_cons, same, induction]
      rw [← meets]
      split at chosen
      · next none =>
          obtain rfl := Option.some.inj chosen
          rw [none]
          simp
      · next group single =>
          obtain rfl := Option.some.inj chosen
          rw [single]
          simp [Clause.holds]
      · next first others _ several =>
          obtain rfl := Option.some.inj chosen
          rw [several]
          simp only [List.forall_mem_singleton, Clause.holds, decide_eq_true_eq, mem_matchedTags]

end Tags

section Branches

variable {suite : HashSuite} {snapshot : GraphqlSnapshot}

/-- A query can be run in branches when every placement that it selects is in exactly one. -/
theorem top_branches (valid : snapshot.Valid) (sort : SortOrder) (limit : Nat)
    (clauses branches : List Clause)
    (apart : branches.Pairwise fun first second => ∀ placement ∈ snapshot.placements,
      selected suite snapshot (clauses ++ [first]) placement = true →
        ¬ selected suite snapshot (clauses ++ [second]) placement = true)
    (covered : ∀ placement ∈ snapshot.placements,
      selected suite snapshot clauses placement = true →
        ∃ branch ∈ branches, selected suite snapshot (clauses ++ [branch]) placement = true) :
    Ranking.top sort.before limit
        (branches.flatMap fun branch =>
          runQuery suite snapshot sort limit (clauses ++ [branch])) =
      runQuery suite snapshot sort limit clauses := by
  have once : snapshot.placements.Nodup := valid.placementKeys.of_map
  have union : (branches.flatMap fun branch =>
      snapshot.placements.filter (selected suite snapshot (clauses ++ [branch]))).Perm
      (snapshot.placements.filter (selected suite snapshot clauses)) := by
    refine (List.perm_ext_iff_of_nodup ?_ (once.filter _)).mpr fun placement => ?_
    · refine List.nodup_flatMap.mpr ⟨fun branch _ => once.filter _, apart.imp ?_⟩
      intro first second separate placement inFirst inSecond
      rw [List.mem_filter] at inFirst inSecond
      exact separate placement inFirst.1 inFirst.2 inSecond.2
    · simp only [List.mem_flatMap, List.mem_filter]
      constructor
      · rintro ⟨branch, _, member, chosen⟩
        exact ⟨member, (selected_append.mp chosen).1⟩
      · rintro ⟨member, chosen⟩
        obtain ⟨branch, listed, inside⟩ := covered placement member chosen
        exact ⟨branch, listed, member, inside⟩
  have separates : Ranking.Separates sort.before
      (snapshot.placements.filter (selected suite snapshot clauses)) :=
    (valid.separates sort).mono (List.filter_subset_self _)
  unfold runQuery
  rw [Ranking.top_flatMap limit (separates.mono union.subset),
    Ranking.top_perm limit separates union]

theorem selected_branch {clauses : List Clause} {clause : Clause} {placement : GraphqlPlacement}
    {object : GraphqlObject} {metadata : GraphqlMetadata}
    (described : Described snapshot placement object metadata) :
    selected suite snapshot (clauses ++ [clause]) placement = true ↔
      selected suite snapshot clauses placement = true ∧
        clause.holds suite snapshot placement object metadata = true := by
  rw [selected_append]
  refine and_congr_right fun _ => selected_eq_true_iff.trans ⟨?_, fun holds => ?_⟩
  · rintro ⟨other, otherMetadata, again, holds⟩
    obtain ⟨rfl, rfl⟩ := described.unique again
    exact holds clause List.mem_cons_self
  · exact ⟨object, metadata, described, by simpa using holds⟩

/-- What the filter columns are for a placement of a described object. -/
theorem columns_of_described (columns : FilterColumns suite snapshot)
    {placement : GraphqlPlacement} (member : placement ∈ snapshot.placements)
    {object : GraphqlObject} {metadata : GraphqlMetadata}
    (described : Described snapshot placement object metadata) :
    placement.ownerFilter = some (graphqlFilter suite metadata.ownerAddress) ∧
      (metadata.target ≠ [] →
        placement.recipientFilter = some (graphqlFilter suite metadata.target)) := by
  obtain ⟨found, complete, _⟩ := described
  have maintained := columns placement member
  have stored : (snapshot.objects.find? fun object => object.key = placement.objectKey).bind
      GraphqlObject.metadata = some metadata := by
    rw [show snapshot.objects.find? _ = some object from found, Option.bind_some, complete]
  simp only [setPlacementFilters, stored, filterColumns] at maintained
  constructor
  · exact (congrArg GraphqlPlacement.ownerFilter maintained).symm
  · intro present
    rw [if_pos present] at maintained
    exact (congrArg GraphqlPlacement.recipientFilter maintained).symm

/-- The branches for owners select what the owners are. -/
theorem runBranches_owners (valid : snapshot.Valid) (columns : FilterColumns suite snapshot)
    (sort : SortOrder) (limit : Nat) {clauses : List Clause} {owners recipients : List Bytes}
    (once : owners.Nodup) (restricted : .ownerAny owners ∈ clauses) :
    runBranches suite snapshot sort limit clauses (some owners) recipients =
      runQuery suite snapshot sort limit clauses := by
  have rows := @top_branches suite snapshot valid sort limit clauses
    (owners.map Clause.ownerBranch) ?_ ?_
  · rw [List.flatMap_map] at rows
    exact rows
  · rw [List.pairwise_map]
    refine once.imp fun {first second} differs placement _ inFirst inSecond => differs ?_
    obtain ⟨object, metadata, described, _⟩ := selected_eq_true_iff.mp inFirst
    have left := ((selected_branch described).mp inFirst).2
    have right := ((selected_branch described).mp inSecond).2
    simp only [Clause.holds, decide_eq_true_eq] at left right
    exact left.2.symm.trans right.2
  · intro placement member chosen
    obtain ⟨object, metadata, described, holds⟩ := selected_eq_true_iff.mp chosen
    have listed := holds _ restricted
    simp only [Clause.holds, decide_eq_true_eq] at listed
    refine ⟨_, List.mem_map_of_mem listed, (selected_branch described).mpr ⟨chosen, ?_⟩⟩
    simpa [Clause.holds] using (columns_of_described columns member described).1

end Branches

section Recipients

variable {suite : HashSuite} {snapshot : GraphqlSnapshot}

instance : Std.Total bytesLe where
  total first second := le_total (first.map UInt8.toNat) (second.map UInt8.toNat)

instance : IsTrans Bytes bytesLe where
  trans first second _ earlier later :=
    le_trans (show first.map UInt8.toNat ≤ second.map UInt8.toNat from earlier) later

/-- Of sorted bytes, the empty ones come first. -/
theorem head_sortDedup_iff {values : List Bytes} :
    (sortDedup bytesLe values).head? = some [] ↔ [] ∈ sortDedup bytesLe values := by
  have order : (sortDedup bytesLe values).Pairwise bytesLe :=
    (List.pairwise_insertionSort bytesLe values).sublist (List.dedup_sublist _)
  generalize sortDedup bytesLe values = sorted at order ⊢
  cases sorted with
  | nil => simp
  | cons first rest =>
      rw [List.head?_cons, Option.some.injEq, List.mem_cons]
      constructor
      · exact fun empty => .inl empty.symm
      · rintro (empty | later)
        · exact empty.symm
        · have least : first.map UInt8.toNat ≤ [] := (List.pairwise_cons.mp order).1 [] later
          cases first with
          | nil => rfl
          | cons byte bytes => exact absurd least (not_le.mpr (List.nil_lt_cons _ _))

/-- The branches for recipients. -/
def recipientBranches (recipients : List Bytes) : List Clause :=
  (recipients.filter fun value => value ≠ []).map Clause.recipientBranch ++
    if [] ∈ recipients then [.noRecipient] else []

theorem runBranches_eq (sort : SortOrder) (limit : Nat) (clauses : List Clause)
    (values : List Bytes) :
    runBranches suite snapshot sort limit clauses none (sortDedup bytesLe values) =
      Ranking.top sort.before limit
        ((recipientBranches (sortDedup bytesLe values)).flatMap fun branch =>
          runQuery suite snapshot sort limit (clauses ++ [branch])) := by
  have named (recipients : List Bytes) (branch : Bytes → List GraphqlPlacement) :
      (if (recipients.any fun value => decide (value ≠ [])) = true then
        (recipients.filter fun value => value ≠ []).flatMap branch else []) =
        (recipients.filter fun value => value ≠ []).flatMap branch := by
    split
    · rfl
    · next none =>
        have empty : recipients.filter (fun value => value ≠ []) = [] := by
          rw [List.filter_eq_nil_iff]
          intro value member some
          exact none (List.any_eq_true.mpr ⟨value, member, some⟩)
        rw [empty, List.flatMap_nil]
  simp only [runBranches, recipientBranches, List.flatMap_append, List.flatMap_map,
    head_sortDedup_iff, named]
  congr 2
  split <;> simp

/-- The branches for recipients select what the recipients are. -/
theorem runBranches_recipients (valid : snapshot.Valid) (columns : FilterColumns suite snapshot)
    (sort : SortOrder) (limit : Nat) {clauses : List Clause} {values : List Bytes}
    (restricted : .targetAny (sortDedup bytesLe values) ∈ clauses) :
    runBranches suite snapshot sort limit clauses none (sortDedup bytesLe values) =
      runQuery suite snapshot sort limit clauses := by
  have once : (sortDedup bytesLe values).Nodup := List.nodup_dedup _
  rw [runBranches_eq]
  generalize sortDedup bytesLe values = recipients at once restricted ⊢
  have target {wanted : Bytes} {clause : Clause} {placement : GraphqlPlacement}
      {object : GraphqlObject} {metadata : GraphqlMetadata}
      (listed : clause = .recipientBranch wanted ∨ clause = .noRecipient ∧ wanted = [])
      (holds : clause.holds suite snapshot placement object metadata = true) :
      metadata.target = wanted := by
    rcases listed with rfl | ⟨rfl, rfl⟩
    · exact (of_decide_eq_true holds).2
    · exact of_decide_eq_true holds
  refine top_branches valid sort limit clauses _ ?_ ?_
  · refine List.pairwise_append.mpr ⟨?_, by split <;> simp, ?_⟩
    · rw [List.pairwise_map]
      refine (once.filter _).imp fun {first second} differs placement _ inFirst inSecond =>
        differs ?_
      obtain ⟨object, metadata, described, _⟩ := selected_eq_true_iff.mp inFirst
      exact (target (.inl rfl) ((selected_branch described).mp inFirst).2).symm.trans
        (target (.inl rfl) ((selected_branch described).mp inSecond).2)
    · intro first firstMember second secondMember placement _ inFirst inSecond
      obtain ⟨wanted, listed, rfl⟩ := List.mem_map.mp firstMember
      have empty : second = .noRecipient := by
        split at secondMember
        · exact List.mem_singleton.mp secondMember
        · cases secondMember
      obtain ⟨object, metadata, described, _⟩ := selected_eq_true_iff.mp inFirst
      have left := target (.inl rfl) ((selected_branch described).mp inFirst).2
      have right : metadata.target = [] :=
        target (.inr ⟨empty, rfl⟩) ((selected_branch described).mp inSecond).2
      have some := (List.mem_filter.mp listed).2
      exact of_decide_eq_true some (left.symm.trans right)
  · intro placement member chosen
    obtain ⟨object, metadata, described, holds⟩ := selected_eq_true_iff.mp chosen
    have listed : metadata.target ∈ recipients := of_decide_eq_true (holds _ restricted)
    by_cases empty : metadata.target = []
    · refine ⟨.noRecipient, List.mem_append_right _ ?_,
        (selected_branch described).mpr ⟨chosen, decide_eq_true empty⟩⟩
      rw [if_pos (empty ▸ listed)]
      exact List.mem_cons_self
    · refine ⟨.recipientBranch metadata.target, List.mem_append_left _ (List.mem_map_of_mem
        (List.mem_filter.mpr ⟨listed, decide_eq_true empty⟩)),
        (selected_branch described).mpr ⟨chosen, decide_eq_true ?_⟩⟩
      exact ⟨(columns_of_described columns member described).2 empty, rfl⟩

end Recipients

section Triggers

variable {suite : HashSuite}

theorem setPlacementFilters_idem (objects : List GraphqlObject) (placement : GraphqlPlacement) :
    setPlacementFilters suite objects (setPlacementFilters suite objects placement) =
      setPlacementFilters suite objects placement := rfl

/-- A placement that is inserted has its filter columns. -/
theorem FilterColumns.insert {snapshot : GraphqlSnapshot} (columns : FilterColumns suite snapshot)
    (placement : GraphqlPlacement) :
    FilterColumns suite { snapshot with
      placements := setPlacementFilters suite snapshot.objects placement :: snapshot.placements } :=
  List.forall_mem_cons.mpr ⟨setPlacementFilters_idem _ _, columns⟩

/-- Placements have their filter columns after objects are updated. -/
theorem FilterColumns.complete {snapshot : GraphqlSnapshot} (columns : FilterColumns suite snapshot)
    (objects : List GraphqlObject) :
    FilterColumns suite { snapshot with
      objects := objects
      placements := snapshot.placements.map
        (completePlacementFilters suite snapshot.objects objects) } := by
  refine List.forall_mem_map.mpr fun placement member => ?_
  have maintained := columns placement member
  simp only [completePlacementFilters]
  split
  · exact setPlacementFilters_idem _ _
  · next same =>
      rw [not_ne_iff] at same
      refine Eq.trans ?_ maintained
      unfold setPlacementFilters
      generalize (objects.find? _).bind _ = new at same ⊢
      generalize (snapshot.objects.find? _).bind _ = old at same ⊢
      cases new <;> cases old <;> simp_all [filterColumns]

end Triggers

section Plans

variable {suite : HashSuite} {snapshot : GraphqlSnapshot}

theorem prepareFilter_recipients {parse : Bytes → Option JsonValue} {tagSearchEnabled : Bool}
    {filter : TransactionFilter} {prepared : PreparedFilter}
    (accepted : prepareFilter parse tagSearchEnabled filter = .ok prepared) :
    ∃ values, prepared.recipients = sortDedup bytesLe values ∧
      (prepared.recipients ≠ [] → .targetAny prepared.recipients ∈ prepared.clauses) := by
  simp only [prepareFilter, Checked.bind_eq_ok, Checked.pure_eq_ok] at accepted
  obtain ⟨_, _, _, _, values, _, _, _, _, _, _, _, _, _, _, _, rfl⟩ := accepted
  refine ⟨values, rfl, fun some => ?_⟩
  simp [recipientClauses, some]

theorem resolveOwners_nodup {owners resolved : List Bytes}
    (found : resolveOwners snapshot owners = some (some resolved)) : resolved.Nodup := by
  unfold resolveOwners at found
  split at found
  · cases found
  · simp only at found
    split at found
    · cases found
    · obtain rfl := Option.some.inj (Option.some.inj found)
      exact List.nodup_dedup _

theorem selected_tagClauses (valid : snapshot.Valid) {tagFirst : Bool} {tags : List TagFilter}
    {clauses : List Clause} (chosen : tagClauses suite snapshot tagFirst tags = some clauses)
    (placement : GraphqlPlacement) :
    selected suite snapshot clauses placement = true ↔
      ∃ object metadata, Described snapshot placement object metadata ∧
        ∀ tag ∈ tags, ∃ ref ∈ snapshot.tags.readObjectTags object.key,
          Refers suite snapshot.tags tag ref := by
  simp only [selected_eq_true_iff, holds_tagClauses valid.names chosen placement]

/-- When the look-up fails, nothing is selected. -/
theorem runQuery_of_unknown (valid : snapshot.Valid) {tagFirst : Bool} {tags : List TagFilter}
    (unknown : tagClauses suite snapshot tagFirst tags = none) {plain : List Clause}
    (chosen : tagClauses suite snapshot false tags = some plain) (sort : SortOrder) (limit : Nat)
    (clauses : List Clause) : runQuery suite snapshot sort limit (clauses ++ plain) = [] := by
  have none : snapshot.placements.filter (selected suite snapshot (clauses ++ plain)) = [] := by
    rw [List.filter_eq_nil_iff]
    intro placement _ selects
    obtain ⟨object, _, _, refers⟩ :=
      (selected_tagClauses valid chosen placement).mp (selected_append.mp selects).2
    cases tagFirst with
    | false => cases unknown
    | true =>
        simp only [tagClauses, if_true, Option.bind_eq_bind, Option.bind_eq_none_iff] at unknown
        cases looked : tagGroups suite snapshot tags with
        | none =>
            obtain ⟨tag, member, absent⟩ := tagGroups_eq_none looked
            obtain ⟨ref, _, found⟩ := refers tag member
            exact absent ref found
        | some groups =>
            have impossible := unknown groups looked
            split at impossible <;> cases impossible
  rw [runQuery, none]
  exact List.take_nil

/-- However a page is selected, it is the one of the plan that tests every object; only branches read
the filter columns. -/
theorem selectPage_eq (valid : snapshot.Valid) (parse : Bytes → Option JsonValue)
    (tagSearchEnabled : Bool) {plan : QueryPlan}
    (columns : plan.filterIndexes = true → FilterColumns suite snapshot)
    (filter : TransactionFilter) :
    selectPage suite snapshot parse tagSearchEnabled plan filter =
      selectPage suite snapshot parse tagSearchEnabled plainPlan filter := by
  unfold selectPage
  cases accepted : prepareFilter parse tagSearchEnabled filter with
  | error message => rfl
  | ok prepared =>
      obtain ⟨values, recipients, restricted⟩ := prepareFilter_recipients accepted
      rw [Checked.ok_bind, Checked.ok_bind]
      split
      · rfl
      · next owners resolved =>
          obtain ⟨plain, plainChosen⟩ : ∃ plain,
            tagClauses suite snapshot plainPlan.tagFirst filter.tags = some plain := ⟨_, rfl⟩
          rw [plainChosen]
          simp only [plainPlan, Bool.false_eq_true, false_and, if_false]
          split
          · next unknown =>
              rw [runQuery_of_unknown valid unknown plainChosen]
          · next clauses chosen =>
              have same : runQuery suite snapshot filter.sort (filter.first + 1)
                  (prepared.clauses ++ (owners.map Clause.ownerAny).toList ++ clauses) =
                  runQuery suite snapshot filter.sort (filter.first + 1)
                    (prepared.clauses ++ (owners.map Clause.ownerAny).toList ++ plain) := by
                refine runQuery_congr fun placement _ => ?_
                rw [selected_append, @selected_append _ _ _ _ plain,
                  selected_tagClauses valid chosen, selected_tagClauses valid plainChosen]
              rw [← same]
              split
              · next indexed =>
                  cases owners with
                  | some addresses =>
                      rw [runBranches_owners valid (columns indexed.1) _ _
                        (resolveOwners_nodup resolved)]
                      simp
                  | none =>
                      have present : prepared.recipients ≠ [] := by simpa using indexed.2.2
                      have member := restricted present
                      rw [recipients] at member ⊢
                      rw [runBranches_recipients valid (columns indexed.1)]
                      simp [member]
              · rfl

theorem runQuery_nodup (valid : snapshot.Valid) (sort : SortOrder) (limit : Nat)
    (clauses : List Clause) : (runQuery suite snapshot sort limit clauses).Nodup := by
  have once : snapshot.placements.Nodup := valid.placementKeys.of_map
  exact ((List.perm_insertionSort sort.before _).nodup_iff.mpr (once.filter _)).sublist
    (List.take_sublist _ _)

theorem selectPage_nodup (valid : snapshot.Valid) {parse : Bytes → Option JsonValue}
    {tagSearchEnabled : Bool} {filter : TransactionFilter} {page : List GraphqlPlacement}
    (answered : selectPage suite snapshot parse tagSearchEnabled plainPlan filter = .ok page) :
    page.Nodup := by
  simp only [selectPage, Checked.bind_eq_ok] at answered
  obtain ⟨prepared, _, answered⟩ := answered
  split at answered
  · obtain rfl := Checked.pure_eq_ok.mp answered
    exact List.nodup_nil
  · split at answered
    · obtain rfl := Checked.pure_eq_ok.mp answered
      exact List.nodup_nil
    · rw [if_neg (by simp [plainPlan])] at answered
      obtain rfl := Checked.pure_eq_ok.mp answered
      exact runQuery_nodup valid _ _ _

/-- With filter columns as the triggers maintain them, every plan answers a request with the same
page as the plan that tests every object, and no placement is on it twice. -/
theorem query_plans_agree (suite : HashSuite) (snapshot : GraphqlSnapshot)
    (valid : snapshot.Valid) (columns : FilterColumns suite snapshot)
    (parse : Bytes → Option JsonValue) (tagSearchEnabled : Bool) (filter : TransactionFilter) :
    (∀ plan : QueryPlan,
      selectPage suite snapshot parse tagSearchEnabled plan filter =
        selectPage suite snapshot parse tagSearchEnabled plainPlan filter) ∧
      ∀ plan page, selectPage suite snapshot parse tagSearchEnabled plan filter = .ok page →
        page.Nodup := by
  refine ⟨fun plan => selectPage_eq valid parse tagSearchEnabled (fun _ => columns) filter, ?_⟩
  intro plan page answered
  rw [selectPage_eq valid parse tagSearchEnabled fun _ => columns] at answered
  exact selectPage_nodup valid answered

end Plans

def ownedObject (key : Nat) (target : Bytes) : GraphqlObject where
  key := key
  id := ⟨List.replicate 31 0 ++ [UInt8.ofNat key], by simp⟩
  metadata := some
    { signature := [1], anchor := [], signatureType := 1, target := target, ownerAddress := [1]
      reward := none, quantity := none, dataSize := 5, contentType := none, indexedAt := 9 }

def ownedObjects : List GraphqlObject := [ownedObject 1 [], ownedObject 2 [7]]

def ownedPlacement (object : GraphqlObject) : GraphqlPlacement :=
  setPlacementFilters sha2Suite ownedObjects
    { objectKey := object.key, blockHeight := 4, position := 0, kind := 0, id := object.id
      locationKey := none, ownerFilter := none, recipientFilter := none }

/-- Two tags, which the second object has. -/
def ownedTags : TagStore where
  names := [(1, [65]), (2, [66])]
  values := [(1, [120]), (2, [121])]
  objects := []
  objectTags := [(2, bigEndian 8 1 ++ bigEndian 8 2 ++ (bigEndian 8 2 ++ bigEndian 8 1))]

/-- Two placements in one block, with one owner. -/
def ownedSnapshot : GraphqlSnapshot where
  placements := ownedObjects.map ownedPlacement
  objects := ownedObjects
  owners := [⟨[1], some [2]⟩]
  canonicalBlocks := [⟨4, ⟨List.replicate 48 0, rfl⟩⟩]
  blocks := [⟨4, ⟨List.replicate 48 0, rfl⟩, none, some 3⟩]
  locations := []
  tags := ownedTags

theorem ownedSnapshot_valid : ownedSnapshot.Valid where
  placementKeys := by decide
  objectIds := by decide
  placed := by
    intro placement member
    obtain ⟨object, stored, rfl⟩ := List.mem_map.mp member
    simp only [ownedObjects, List.mem_cons, List.not_mem_nil, or_false] at stored
    rcases stored with rfl | rfl
    · exact ⟨ownedObject 1 [], rfl, rfl⟩
    · exact ⟨ownedObject 2 [7], rfl, rfl⟩
  owned := by
    intro object stored metadata complete
    simp only [ownedSnapshot, ownedObjects, List.mem_cons, List.not_mem_nil, or_false] at stored
    rcases stored with rfl | rfl <;> obtain rfl := Option.some.inj complete <;> rfl
  heights := List.nodup_singleton _
  names := by decide

theorem ownedSnapshot_columns : FilterColumns sha2Suite ownedSnapshot :=
  List.forall_mem_map.mpr fun _ _ => setPlacementFilters_idem _ _

/-- The items of an owner, named by the public key. -/
def ownerRequest : TransactionFilter where
  owners := ["Ag"]
  first := 1

/-- The items with two tags. -/
def taggedRequest : TransactionFilter where
  tags := [⟨"A", ["y"]⟩, ⟨"B", ["x", "z"]⟩]
  first := 1

theorem query_plans_agree_sample :
    (selectPage sha2Suite ownedSnapshot (fun _ => none) true ⟨true, true⟩ ownerRequest).map
        (fun page => page.map GraphqlPlacement.objectKey) = .ok [2, 1] ∧
      taggedRequest.tagFirst = true ∧
      (selectPage sha2Suite ownedSnapshot (fun _ => none) true ⟨true, true⟩ taggedRequest).map
        (fun page => page.map GraphqlPlacement.objectKey) = .ok [2] := by
  have plans := query_plans_agree sha2Suite ownedSnapshot ownedSnapshot_valid ownedSnapshot_columns
    (fun _ => none) true
  refine ⟨?_, rfl, ?_⟩
  · rw [(plans ownerRequest).1]
    decide
  · rw [(plans taggedRequest).1]
    decide +kernel

end ArIoGateway
