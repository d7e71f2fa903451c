import ArIoGateway.Codec

/-!
# Stored tags

Names and values of tags are rows of two dictionaries; the tags of an object are one row of pairs of
keys, in order, packed into bytes.
-/

namespace ArIoGateway

open Octets

/-- The rows of a dictionary: keys with their bytes. -/
abbrev Dictionary := List (Nat × Bytes)

/-- A row of `objects`, with what the tags decide. -/
structure ObjectRow where
  key : Nat
  metadataComplete : Bool
  isBundle : Bool
deriving DecidableEq

/-- The tables of tags and objects. -/
structure TagStore where
  names : Dictionary
  values : Dictionary
  objects : List ObjectRow
  objectTags : List (Nat × Bytes)
deriving DecidableEq

/-- The key of some bytes. -/
def keyOf (dictionary : Dictionary) (value : Bytes) : Option Nat :=
  (dictionary.find? fun row => row.2 = value).map Prod.fst

/-- `pack_refs`. -/
def packRefs (names values : Dictionary) : List (Bytes × Bytes) → Checked Bytes
  | [] => pure []
  | (name, value) :: tags => do
      let name ← Checked.context (keyOf names name) "missing tag name"
      let value ← Checked.context (keyOf values value) "missing tag value"
      pure (bigEndian 8 name ++ bigEndian 8 value ++ (← packRefs names values tags))

/-- `decode_tag_refs`, without the ordinals, which are the places.  A key is its 64 bits. -/
def decodeTagRefs (refs : Bytes) : List (Nat × Nat) :=
  (List.range (refs.length / 16)).map fun n =>
    (ofBigEndian ((refs.drop (n * 16)).take 8), ofBigEndian ((refs.drop (n * 16 + 8)).take 8))

namespace TagStore

def empty : TagStore where
  names := []
  values := []
  objects := []
  objectTags := []

/-- `read_object_tags`. -/
def readObjectTags (store : TagStore) (wanted : Nat) : List (Nat × Nat) :=
  (store.objectTags.filter fun row => row.1 = wanted).flatMap fun row => decodeTagRefs row.2

/-- The references of an object, empty when it has no row. -/
def refsOf (store : TagStore) (wanted : Nat) : Bytes :=
  ((store.objectTags.find? fun row => row.1 = wanted).map Prod.snd).getD []

/-- References joined with the dictionaries. -/
def join (names values : Dictionary) (refs : List (Nat × Nat)) : List (Bytes × Bytes) :=
  refs.flatMap fun ref =>
    (names.filter fun row => row.1 = ref.1).flatMap fun name =>
      (values.filter fun row => row.1 = ref.2).map fun value => (name.2, value.2)

/-- The tags of an object, in order. -/
def storedTags (store : TagStore) (wanted : Nat) : List (Bytes × Bytes) :=
  join store.names store.values (store.readObjectTags wanted)

end TagStore

theorem decodeTagRefs_append {block : Bytes} (width : block.length = 16) (rest : Bytes) :
    decodeTagRefs (block ++ rest) =
      (ofBigEndian (block.take 8), ofBigEndian (block.drop 8)) :: decodeTagRefs rest := by
  have rounds : (block ++ rest).length / 16 = rest.length / 16 + 1 := by
    rw [List.length_append, width]
    omega
  unfold decodeTagRefs
  rw [rounds, List.range_succ_eq_map, List.map_cons, List.map_map]
  refine congrArg₂ List.cons ?_ (List.map_congr_left fun n _ => ?_)
  · have first : (block ++ rest).take 8 = block.take 8 :=
      List.take_append_of_le_length (by omega)
    have second : ((block ++ rest).drop 8).take 8 = block.drop 8 := by
      rw [List.drop_append_of_le_length (by omega)]
      exact List.take_left' (by rw [List.length_drop, width])
    simp only [Nat.zero_mul, Nat.zero_add, List.drop_zero, first, second]
  · have later (place : Nat) : (block ++ rest).drop (16 + place) = rest.drop place := by
      rw [← width]
      exact List.drop_length_add_append place
    simp only [Function.comp_apply, Nat.succ_eq_add_one]
    rw [show (n + 1) * 16 = 16 + n * 16 by omega, later,
      show 16 + n * 16 + 8 = 16 + (n * 16 + 8) by omega, later]

/-- Packed references are those of the tags. -/
theorem decodeTagRefs_packRefs {names values : Dictionary} {tags : List (Bytes × Bytes)}
    {refs : Bytes} (nameKeys : ∀ row ∈ names, row.1 < 2 ^ 64)
    (valueKeys : ∀ row ∈ values, row.1 < 2 ^ 64) (packed : packRefs names values tags = .ok refs) :
    List.Forall₂ (fun tag ref => keyOf names tag.1 = some ref.1 ∧ keyOf values tag.2 = some ref.2)
      tags (decodeTagRefs refs) := by
  induction tags generalizing refs with
  | nil =>
      cases packed
      exact .nil
  | cons tag tags induction =>
      obtain ⟨name, value⟩ := tag
      simp only [packRefs, Checked.bind_eq_ok, Checked.context_eq_ok, Checked.pure_eq_ok] at packed
      obtain ⟨nameKey, nameFound, valueKey, valueFound, rest, packed, rfl⟩ := packed
      have bound {dictionary : Dictionary} {bytes : Bytes} {key : Nat}
          (small : ∀ row ∈ dictionary, row.1 < 2 ^ 64) (found : keyOf dictionary bytes = some key) :
          key < 256 ^ 8 := by
        obtain ⟨row, there, rfl⟩ := Option.map_eq_some_iff.mp found
        exact small row (List.mem_of_find?_eq_some there)
      rw [decodeTagRefs_append (by simp), List.take_left' (by simp), List.drop_left' (by simp),
        ofBigEndian_bigEndian (bound nameKeys nameFound),
        ofBigEndian_bigEndian (bound valueKeys valueFound)]
      exact .cons ⟨nameFound, valueFound⟩ (induction packed)

/-- In a dictionary with distinct keys, a key has the bytes that it was found for. -/
theorem filter_of_keyOf {dictionary : Dictionary} {value : Bytes} {key : Nat}
    (keys : (dictionary.map Prod.fst).Nodup) (found : keyOf dictionary value = some key) :
    (dictionary.filter fun row => row.1 = key) = [(key, value)] := by
  obtain ⟨row, there, rfl⟩ := Option.map_eq_some_iff.mp found
  have member := List.mem_of_find?_eq_some there
  have same : row.2 = value := by simpa using List.find?_some there
  obtain ⟨before, after, rfl⟩ := List.append_of_mem member
  rw [List.map_append, List.map_cons, List.nodup_middle, List.nodup_cons] at keys
  have apart (other : Nat × Bytes) (inside : other ∈ before ++ after) : ¬ other.1 = row.1 := by
    intro equal
    refine keys.1 ?_
    rw [← List.map_append, ← equal]
    exact List.mem_map_of_mem inside
  have none (rows : List (Nat × Bytes)) (subset : rows ⊆ before ++ after) :
      rows.filter (fun other => other.1 = row.1) = [] :=
    List.filter_eq_nil_iff.mpr fun other inside => by simpa using apart other (subset inside)
  rw [List.filter_append, List.filter_cons_of_pos (by simp), none before (by simp),
    none after (by simp), ← same]
  rfl

/-- Tags that are packed are read back. -/
theorem join_packRefs {names values : Dictionary} {tags : List (Bytes × Bytes)} {refs : Bytes}
    (nameKeys : ∀ row ∈ names, row.1 < 2 ^ 64) (valueKeys : ∀ row ∈ values, row.1 < 2 ^ 64)
    (nameDistinct : (names.map Prod.fst).Nodup) (valueDistinct : (values.map Prod.fst).Nodup)
    (packed : packRefs names values tags = .ok refs) :
    TagStore.join names values (decodeTagRefs refs) = tags := by
  have decoded := decodeTagRefs_packRefs nameKeys valueKeys packed
  generalize decodeTagRefs refs = decodedRefs at decoded
  clear packed
  induction decoded with
  | nil => rfl
  | cons found _ induction =>
      rw [TagStore.join, List.flatMap_cons, filter_of_keyOf nameDistinct found.1,
        filter_of_keyOf valueDistinct found.2]
      exact congrArg₂ List.cons rfl induction

end ArIoGateway
