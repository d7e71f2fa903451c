import ArIoGateway.Foundation.Batches
import ArIoGateway.TagStore

/-!
# Dictionaries of tags

The bytes of names and values are looked up in their dictionary and inserted where they are missing,
in batches.  Every key that is found or made stays the key of its bytes.
-/

namespace ArIoGateway

open Octets

def rowBatchSize : Nat := 1000

/-- A dictionary with the next number of its sequence of keys. -/
structure TagDictionary where
  rows : Dictionary
  next : Nat
deriving DecidableEq

/-- A `bigint` sequence gives so many more keys. -/
def ensureSequence (next count : Nat) : Checked Unit :=
  Checked.ensure (next + count ≤ 2 ^ 63) "nextval: reached maximum value of sequence"

namespace TagDictionary

/-- The rows of `lookup_tag_values` that have a key; digests only narrow the candidates. -/
def lookup (dictionary : TagDictionary) (entries : List Bytes) : Dictionary :=
  entries.flatMap fun value => dictionary.rows.filter fun row => row.2 = value

/-- Insert the entries that are missing, with the next keys. -/
def insertMissing (dictionary : TagDictionary) (entries : List Bytes) : Checked TagDictionary := do
  let missing := entries.filter fun value => (keyOf dictionary.rows value).isNone
  ensureSequence dictionary.next missing.length
  pure ⟨dictionary.rows ++ (List.range' dictionary.next missing.length).zip missing,
    dictionary.next + missing.length⟩

/-- One batch of entries that were missing: insert them, then find them all. -/
def internBatch (state : TagDictionary × Dictionary) (entries : List Bytes) :
    Checked (TagDictionary × Dictionary) := do
  let dictionary ← state.1.insertMissing entries
  let rows := dictionary.lookup entries
  Checked.ensure (rows.length = entries.length) "tag dictionary lookup is incomplete"
  pure (dictionary, state.2 ++ rows)

/-- `resolve_tags` for one dictionary: the dictionary afterwards and the keys of the entries. -/
def resolve (dictionary : TagDictionary) (entries : List Bytes) :
    Checked (TagDictionary × Dictionary) :=
  let found := (Batches.chunks rowBatchSize entries).flatMap dictionary.lookup
  let missing := entries.filter fun value => (keyOf found value).isNone
  (Batches.chunks rowBatchSize missing).foldlM internBatch (dictionary, found)

/-- What holds of a dictionary at any time: keys and bytes are distinct, and the sequence is ahead
of the keys. -/
structure Sound (dictionary : TagDictionary) : Prop where
  keys : (dictionary.rows.map Prod.fst).Nodup
  values : (dictionary.rows.map Prod.snd).Nodup
  below : ∀ row ∈ dictionary.rows, row.1 < dictionary.next
  bound : dictionary.next ≤ 2 ^ 63

/-- A dictionary that has grown by rows. -/
def Grows (before after : TagDictionary) : Prop := before.rows <+: after.rows

end TagDictionary

theorem keyOf_eq_some {dictionary : Dictionary} (values : (dictionary.map Prod.snd).Nodup)
    {value : Bytes} {key : Nat} :
    keyOf dictionary value = some key ↔ (key, value) ∈ dictionary := by
  rw [keyOf, Option.map_eq_some_iff]
  constructor
  · rintro ⟨row, found, rfl⟩
    have same : row.2 = value := by simpa using List.find?_some found
    rw [← same]
    exact List.mem_of_find?_eq_some found
  · intro member
    cases found : dictionary.find? fun row => row.2 = value with
    | none =>
        have absent := List.find?_eq_none.mp found (key, value) member
        simp at absent
    | some row =>
        have same : row.2 = value := by simpa using List.find?_some found
        have equal : row = (key, value) :=
          List.inj_on_of_nodup_map values (List.mem_of_find?_eq_some found) member same
        exact ⟨row, rfl, by rw [equal]⟩

theorem keyOf_eq_none {dictionary : Dictionary} {value : Bytes} :
    keyOf dictionary value = none ↔ value ∉ dictionary.map Prod.snd := by
  rw [keyOf, Option.map_eq_none_iff, List.find?_eq_none, List.mem_map]
  simp only [decide_eq_true_eq, not_exists, not_and]

/-- A key that is found in some rows of a dictionary is the key of the dictionary. -/
theorem keyOf_of_subset {rows dictionary : Dictionary} (subset : rows ⊆ dictionary)
    (values : (dictionary.map Prod.snd).Nodup) {value : Bytes}
    (found : value ∈ rows.map Prod.snd) :
    ∃ key, keyOf rows value = some key ∧ keyOf dictionary value = some key := by
  cases there : keyOf rows value with
  | none => exact absurd found (keyOf_eq_none.mp there)
  | some key =>
      obtain ⟨row, inside, rfl⟩ := Option.map_eq_some_iff.mp there
      have same : row.2 = value := by simpa using List.find?_some inside
      refine ⟨row.1, rfl, (keyOf_eq_some values).mpr ?_⟩
      rw [← same]
      exact subset (List.mem_of_find?_eq_some inside)

theorem keyOf_of_prefix {before after : Dictionary} (grows : before <+: after) {value : Bytes}
    {key : Nat} (found : keyOf before value = some key) : keyOf after value = some key := by
  obtain ⟨more, rfl⟩ := grows
  obtain ⟨row, inside, same⟩ := Option.map_eq_some_iff.mp found
  rw [keyOf, List.find?_append, inside]
  exact congrArg some same

theorem map_snd_filter {dictionary : Dictionary} (values : (dictionary.map Prod.snd).Nodup)
    {value : Bytes} (member : value ∈ dictionary.map Prod.snd) :
    ((dictionary.filter fun row => row.2 = value).map Prod.snd) = [value] := by
  have same : ((dictionary.filter fun row => row.2 = value).map Prod.snd) =
      (dictionary.map Prod.snd).filter fun other => other = value := by
    rw [List.filter_map]
    rfl
  rw [same, List.filter_eq, List.nodup_iff_count_eq_one.mp values value member]
  rfl

namespace TagDictionary

variable {dictionary : TagDictionary} {entries : List Bytes}

theorem lookup_subset : dictionary.lookup entries ⊆ dictionary.rows := by
  intro row member
  obtain ⟨value, -, found⟩ := List.mem_flatMap.mp member
  exact List.mem_of_mem_filter found

/-- Entries that are all there are found in order. -/
theorem map_snd_lookup (sound : dictionary.Sound)
    (there : ∀ value ∈ entries, value ∈ dictionary.rows.map Prod.snd) :
    ((dictionary.lookup entries).map Prod.snd) = entries := by
  rw [lookup, List.map_flatMap]
  induction entries with
  | nil => rfl
  | cons value entries induction =>
      obtain ⟨first, behind⟩ := List.forall_mem_cons.mp there
      rw [List.flatMap_cons, map_snd_filter sound.values first, induction behind]
      rfl

/-- What inserting the missing entries does. -/
structure Inserted (dictionary : TagDictionary) (entries : List Bytes) (after : TagDictionary) :
    Prop where
  sound : after.Sound
  grows : dictionary.Grows after
  next : after.next ≤ dictionary.next + entries.length
  there : ∀ value ∈ entries, value ∈ after.rows.map Prod.snd
  same : (∀ value ∈ entries, value ∈ dictionary.rows.map Prod.snd) → after = dictionary

theorem exists_insertMissing (sound : dictionary.Sound) (distinct : entries.Nodup)
    (room : dictionary.next + entries.length ≤ 2 ^ 63) :
    ∃ after, dictionary.insertMissing entries = .ok after ∧ dictionary.Inserted entries after := by
  have shorter := List.length_filter_le (fun value => (keyOf dictionary.rows value).isNone) entries
  have absent : ∀ value ∈ entries.filter (fun value => (keyOf dictionary.rows value).isNone),
      value ∉ dictionary.rows.map Prod.snd := fun value member =>
    keyOf_eq_none.mp (Option.isNone_iff_eq_none.mp (List.mem_filter.mp member).2)
  have kept : ∀ value ∈ entries, value ∉ dictionary.rows.map Prod.snd →
      value ∈ entries.filter (fun value => (keyOf dictionary.rows value).isNone) :=
    fun value member missing => List.mem_filter.mpr
      ⟨member, Option.isNone_iff_eq_none.mpr (keyOf_eq_none.mpr missing)⟩
  have inside : ∀ value ∈ entries.filter (fun value => (keyOf dictionary.rows value).isNone),
      value ∈ entries := fun value member => List.mem_of_mem_filter member
  have apart := distinct.filter fun value => (keyOf dictionary.rows value).isNone
  rw [insertMissing]
  generalize entries.filter (fun value => (keyOf dictionary.rows value).isNone) = missing at *
  have fits : dictionary.next + missing.length ≤ 2 ^ 63 := by omega
  have keys : ((List.range' dictionary.next missing.length).zip missing).map Prod.fst =
      List.range' dictionary.next missing.length :=
    List.map_fst_zip (by rw [List.length_range'])
  have values : ((List.range' dictionary.next missing.length).zip missing).map Prod.snd = missing :=
    List.map_snd_zip (by rw [List.length_range'])
  rw [ensureSequence, Checked.ensure_of fits]
  refine ⟨_, rfl, ⟨?_, ?_, ?_, fits⟩, List.prefix_append _ _, ?_, ?_, ?_⟩
  · rw [List.map_append, keys]
    refine List.nodup_append.mpr ⟨sound.keys, List.nodup_range', ?_⟩
    intro key old other new same
    obtain ⟨row, member, rfl⟩ := List.mem_map.mp old
    have small := sound.below row member
    have large := (List.mem_range'_1.mp new).1
    omega
  · rw [List.map_append, values]
    refine List.nodup_append.mpr ⟨sound.values, apart, ?_⟩
    rintro value old _ new rfl
    exact absent value new old
  · intro row member
    rcases List.mem_append.mp member with old | new
    · have small := sound.below row old
      exact Nat.lt_of_lt_of_le small (Nat.le_add_right _ _)
    · have key : row.1 ∈ List.range' dictionary.next missing.length := by
        rw [← keys]
        exact List.mem_map_of_mem new
      exact (List.mem_range'_1.mp key).2
  · exact Nat.add_le_add_left shorter _
  · intro value member
    rw [List.map_append, values, List.mem_append]
    by_cases old : value ∈ dictionary.rows.map Prod.snd
    · exact .inl old
    · exact .inr (kept value member old)
  · intro there
    have none : missing = [] := List.eq_nil_iff_forall_not_mem.mpr fun value member =>
      absent value member (there value (inside value member))
    subst none
    simp

/-- One batch of entries becomes part of the dictionary and of the keys. -/
theorem exists_internBatch {keys : Dictionary} (sound : dictionary.Sound) (distinct : entries.Nodup)
    (room : dictionary.next + entries.length ≤ 2 ^ 63) :
    ∃ after, internBatch (dictionary, keys) entries = .ok (after, keys ++ after.lookup entries) ∧
      dictionary.Inserted entries after := by
  obtain ⟨after, inserted, made⟩ := exists_insertMissing sound distinct room
  have complete : (after.lookup entries).length = entries.length := by
    rw [← List.length_map Prod.snd, map_snd_lookup made.sound made.there]
  refine ⟨after, ?_, made⟩
  rw [internBatch, inserted, Checked.ok_bind]
  simp only
  rw [Checked.ensure_of complete]
  rfl

/-- What resolving entries does: the dictionary grows by those that are missing, and each entry has
its key. -/
structure Resolved (dictionary : TagDictionary) (entries : List Bytes) (after : TagDictionary)
    (keys : Dictionary) : Prop where
  sound : after.Sound
  grows : dictionary.Grows after
  subset : keys ⊆ after.rows
  there : ∀ value ∈ entries, value ∈ keys.map Prod.snd
  same : (∀ value ∈ entries, value ∈ dictionary.rows.map Prod.snd) → after = dictionary

theorem Resolved.keyOf {after : TagDictionary} {keys : Dictionary}
    (resolved : dictionary.Resolved entries after keys) {value : Bytes} (member : value ∈ entries) :
    ∃ key, ArIoGateway.keyOf keys value = some key ∧
      ArIoGateway.keyOf after.rows value = some key :=
  keyOf_of_subset resolved.subset resolved.sound.values (resolved.there value member)

theorem exists_internBatches {keys : Dictionary} {batches : List (List Bytes)}
    (sound : dictionary.Sound) (subset : keys ⊆ dictionary.rows) (distinct : batches.flatten.Nodup)
    (room : dictionary.next + batches.flatten.length ≤ 2 ^ 63) :
    ∃ after more, batches.foldlM internBatch (dictionary, keys) = .ok (after, keys ++ more) ∧
      dictionary.Resolved batches.flatten after (keys ++ more) := by
  induction batches generalizing dictionary keys with
  | nil =>
      refine ⟨dictionary, [], ?_, sound, List.prefix_rfl, ?_, by simp, fun _ => rfl⟩
      · rw [List.append_nil]
        rfl
      · rwa [List.append_nil]
  | cons entries batches induction =>
      rw [List.flatten_cons] at distinct room
      obtain ⟨first, behind, -⟩ := List.nodup_append.mp distinct
      rw [List.length_append] at room
      obtain ⟨middle, interned, made⟩ := @exists_internBatch _ _ keys sound first (by omega)
      have grown : keys ⊆ middle.rows := fun row member => made.grows.subset (subset member)
      have both : keys ++ middle.lookup entries ⊆ middle.rows :=
        List.append_subset.mpr ⟨grown, lookup_subset⟩
      have next := made.next
      obtain ⟨after, more, run, resolved⟩ := induction made.sound both behind (by omega)
      refine ⟨after, middle.lookup entries ++ more, ?_, resolved.sound,
        made.grows.trans resolved.grows, ?_, ?_, ?_⟩
      · rw [List.foldlM_cons, interned, Checked.ok_bind, run, List.append_assoc]
      · rw [← List.append_assoc]
        exact resolved.subset
      · intro value member
        rw [← List.append_assoc]
        rcases List.mem_append.mp (List.flatten_cons ▸ member) with here | later
        · rw [List.map_append, List.map_append, map_snd_lookup made.sound made.there]
          exact List.mem_append_left _ (List.mem_append_right _ here)
        · exact resolved.there value later
      · intro there
        have same : middle = dictionary := made.same fun value member =>
          there value (List.mem_append_left _ member)
        rw [same] at resolved
        exact resolved.same fun value member => there value (List.mem_append_right _ member)

theorem flatMap_lookup_chunks :
    (Batches.chunks rowBatchSize entries).flatMap dictionary.lookup =
      dictionary.lookup entries := by
  have pieces : (Batches.chunks rowBatchSize entries).flatten.flatMap
      (fun value => dictionary.rows.filter fun row => row.2 = value) =
      (Batches.chunks rowBatchSize entries).flatMap dictionary.lookup := by
    rw [← List.flatMap_id, List.flatMap_assoc]
    rfl
  have positive : 0 < rowBatchSize := by decide
  rw [← pieces, Batches.flatten_chunks positive, lookup]

/-- Entries that are all there are found without a change. -/
theorem exists_resolve_of_there (sound : dictionary.Sound)
    (there : ∀ value ∈ entries, value ∈ dictionary.rows.map Prod.snd) :
    ∃ keys, dictionary.resolve entries = .ok (dictionary, keys) ∧
      dictionary.Resolved entries dictionary keys := by
  have found : ∀ value ∈ entries, value ∈ (dictionary.lookup entries).map Prod.snd := by
    rw [map_snd_lookup sound there]
    exact fun value member => member
  have none : (entries.filter fun value =>
      (ArIoGateway.keyOf (dictionary.lookup entries) value).isNone) = [] := by
    refine List.filter_eq_nil_iff.mpr fun value member missing => ?_
    exact keyOf_eq_none.mp (Option.isNone_iff_eq_none.mp missing) (found value member)
  refine ⟨dictionary.lookup entries, ?_, sound, List.prefix_rfl, lookup_subset, found, fun _ => rfl⟩
  rw [resolve]
  simp only [flatMap_lookup_chunks, none]
  rfl

/-- Resolving distinct entries succeeds while the sequence has keys for them. -/
theorem exists_resolve (sound : dictionary.Sound) (distinct : entries.Nodup)
    (room : dictionary.next + entries.length ≤ 2 ^ 63) :
    ∃ after keys, dictionary.resolve entries = .ok (after, keys) ∧
      dictionary.Resolved entries after keys := by
  have positive : 0 < rowBatchSize := by decide
  rw [resolve]
  simp only [flatMap_lookup_chunks]
  have shorter := List.length_filter_le
    (fun value => (ArIoGateway.keyOf (dictionary.lookup entries) value).isNone) entries
  have apart := distinct.filter
    fun value => (ArIoGateway.keyOf (dictionary.lookup entries) value).isNone
  have kept : ∀ value ∈ entries, value ∉ (dictionary.lookup entries).map Prod.snd →
      value ∈ entries.filter fun value =>
        (ArIoGateway.keyOf (dictionary.lookup entries) value).isNone :=
    fun value member missing => List.mem_filter.mpr
      ⟨member, Option.isNone_iff_eq_none.mpr (keyOf_eq_none.mpr missing)⟩
  have inside : ∀ value ∈ entries.filter (fun value =>
      (ArIoGateway.keyOf (dictionary.lookup entries) value).isNone), value ∈ entries :=
    fun value member => List.mem_of_mem_filter member
  generalize entries.filter (fun value =>
    (ArIoGateway.keyOf (dictionary.lookup entries) value).isNone) = missing at *
  have whole := Batches.flatten_chunks positive missing
  obtain ⟨after, more, run, resolved⟩ := @exists_internBatches _
    (dictionary.lookup entries) (Batches.chunks rowBatchSize missing) sound lookup_subset
    (by rw [whole]; exact apart) (by rw [whole]; omega)
  rw [whole] at resolved
  refine ⟨after, _, run, resolved.sound, resolved.grows, resolved.subset, ?_, ?_⟩
  · intro value member
    by_cases old : value ∈ (dictionary.lookup entries).map Prod.snd
    · rw [List.map_append]
      exact List.mem_append_left _ old
    · exact resolved.there value (kept value member old)
  · intro there
    exact resolved.same fun value member => there value (inside value member)

end TagDictionary

end ArIoGateway
