import ArIoGateway.Foundation.Octets

/-!
# Bencode

Numbers, strings, lists and dictionaries, and the bytes that they are written as.  A dictionary is
kept as a list of entries; one that is built by insertion has its keys in ascending order, each of
them once.
-/

open Octets

/-- A value; the keys of a dictionary are strings. -/
inductive Bencode where
  | int (value : Nat)
  | bytes (value : Bytes)
  | list (items : List Bencode)
  | dict (entries : List (Bytes × Bencode))

namespace Bencode

/-- A string is written behind its length. -/
def encodeBytes (value : Bytes) : Bytes := decimal value.length ++ [58] ++ value

mutual

def encode : Bencode → Bytes
  | int value => [105] ++ decimal value ++ [101]
  | bytes value => encodeBytes value
  | list items => [108] ++ encodeItems items ++ [101]
  | dict entries => [100] ++ encodeEntries entries ++ [101]

def encodeItems : List Bencode → Bytes
  | [] => []
  | item :: items => item.encode ++ encodeItems items

def encodeEntries : List (Bytes × Bencode) → Bytes
  | [] => []
  | (key, value) :: entries => encodeBytes key ++ value.encode ++ encodeEntries entries

end

/-- Every dictionary in a value has its keys in ascending order. -/
inductive Sorted : Bencode → Prop
  | int (value : Nat) : Sorted (int value)
  | bytes (value : Bytes) : Sorted (bytes value)
  | list {items : List Bencode} (all : ∀ item ∈ items, Sorted item) : Sorted (list items)
  | dict {entries : List (Bytes × Bencode)}
      (ascending : entries.Pairwise fun left right => left.1 < right.1)
      (all : ∀ entry ∈ entries, Sorted entry.2) : Sorted (dict entries)

theorem encodeEntries_append (left right : List (Bytes × Bencode)) :
    encodeEntries (left ++ right) = encodeEntries left ++ encodeEntries right := by
  induction left with
  | nil => rfl
  | cons entry left induction =>
      rw [List.cons_append, encodeEntries, encodeEntries, induction]
      simp only [List.append_assoc]

section Insertion

variable {α : Type*}

/-- Insert a value under a key; the old value goes. -/
def insertEntry (key : Bytes) (value : α) : List (Bytes × α) → List (Bytes × α)
  | [] => [(key, value)]
  | (other, old) :: entries =>
      if key < other then (key, value) :: (other, old) :: entries
      else if key = other then (key, value) :: entries
      else (other, old) :: insertEntry key value entries

/-- A dictionary of entries; of entries with one key the last one counts. -/
def collect (entries : List (Bytes × α)) : List (Bytes × α) :=
  entries.foldl (fun sorted entry => insertEntry entry.1 entry.2 sorted) []

/-- The keys of entries in ascending order. -/
def Ascending (entries : List (Bytes × α)) : Prop :=
  entries.Pairwise fun left right => left.1 < right.1

theorem mem_insertEntry {key : Bytes} {value : α} {entries : List (Bytes × α)}
    {entry : Bytes × α} (member : entry ∈ insertEntry key value entries) :
    entry = (key, value) ∨ entry ∈ entries := by
  induction entries with
  | nil => exact .inl (List.mem_singleton.mp member)
  | cons other entries induction =>
      obtain ⟨otherKey, old⟩ := other
      rw [insertEntry] at member
      split at member
      · exact (List.mem_cons.mp member).imp_right id
      · split at member
        · exact (List.mem_cons.mp member).imp_right (List.mem_cons_of_mem _)
        · rcases List.mem_cons.mp member with rfl | rest
          · exact .inr List.mem_cons_self
          · exact (induction rest).imp_right (List.mem_cons_of_mem _)

theorem Ascending.insertEntry {key : Bytes} {value : α} {entries : List (Bytes × α)}
    (ascending : Ascending entries) : Ascending (insertEntry key value entries) := by
  induction entries with
  | nil => exact List.pairwise_singleton _ _
  | cons other entries induction =>
      obtain ⟨otherKey, old⟩ := other
      obtain ⟨first, rest⟩ := List.pairwise_cons.mp ascending
      rw [Bencode.insertEntry]
      split
      · next before =>
          refine List.pairwise_cons.mpr ⟨fun entry member => ?_, ascending⟩
          rcases List.mem_cons.mp member with rfl | later
          · exact before
          · exact List.lt_trans before (first entry later)
      · next behind =>
          split
          · next same =>
              subst same
              exact List.pairwise_cons.mpr ⟨first, rest⟩
          · next differ =>
              refine List.pairwise_cons.mpr ⟨fun entry member => ?_, induction rest⟩
              rcases mem_insertEntry member with rfl | later
              · by_contra notLess
                exact differ (List.le_antisymm (List.not_lt.mp notLess) (List.not_lt.mp behind))
              · exact first entry later

theorem ascending_collect (entries : List (Bytes × α)) : Ascending (collect entries) := by
  have all : ∀ sorted : List (Bytes × α), Ascending sorted → Ascending
      (entries.foldl (fun sorted entry => insertEntry entry.1 entry.2 sorted) sorted) := by
    induction entries with
    | nil => exact fun _ ascending => ascending
    | cons entry entries induction => exact fun _ ascending => induction _ ascending.insertEntry
  exact all [] .nil

theorem mem_collect {entries : List (Bytes × α)} {entry : Bytes × α}
    (member : entry ∈ collect entries) : entry ∈ entries := by
  have all : ∀ entries sorted : List (Bytes × α), entry ∈
      entries.foldl (fun sorted entry => insertEntry entry.1 entry.2 sorted) sorted →
      entry ∈ sorted ∨ entry ∈ entries := by
    intro entries
    induction entries with
    | nil => exact fun _ there => .inl there
    | cons other entries induction =>
        intro sorted there
        rcases induction _ there with early | late
        · rcases mem_insertEntry early with rfl | old
          · exact .inr List.mem_cons_self
          · exact .inl old
        · exact .inr (List.mem_cons_of_mem _ late)
  exact (all entries [] member).resolve_left List.not_mem_nil

/-- The value under a key. -/
def lookup (key : Bytes) (entries : List (Bytes × α)) : Option α :=
  (entries.find? fun entry => decide (entry.1 = key)).map Prod.snd

theorem lookup_insertEntry (key other : Bytes) (value : α) {entries : List (Bytes × α)}
    (ascending : Ascending entries) :
    lookup other (insertEntry key value entries) =
      if other = key then some value else lookup other entries := by
  induction entries with
  | nil =>
      rw [insertEntry, lookup, List.find?_singleton]
      by_cases same : other = key
      · simp [same]
      · simp [same, lookup, Ne.symm same]
  | cons entry entries induction =>
      obtain ⟨otherKey, old⟩ := entry
      obtain ⟨first, rest⟩ := List.pairwise_cons.mp ascending
      have next := induction rest
      unfold lookup at next ⊢
      rw [insertEntry]
      split
      · rw [List.find?_cons]
        by_cases same : other = key
        · simp [same]
        · simp [same, Ne.symm same]
      · split
        · next equal =>
            subst equal
            rw [List.find?_cons, List.find?_cons]
            by_cases same : other = key
            · simp [same]
            · simp [same, Ne.symm same]
        · next differ =>
            rw [List.find?_cons, List.find?_cons]
            by_cases found : otherKey = other
            · have distinct : other ≠ key := fun same => differ (same.symm.trans found.symm)
              simp [found, distinct]
            · simpa [found] using next

theorem collect_concat (entries : List (Bytes × α)) (entry : Bytes × α) :
    collect (entries ++ [entry]) = insertEntry entry.1 entry.2 (collect entries) := by
  rw [collect, List.foldl_append]
  rfl

/-- Of entries with one key the last one counts. -/
theorem lookup_collect (key : Bytes) (entries : List (Bytes × α)) :
    lookup key (collect entries) = lookup key entries.reverse := by
  induction entries using List.reverseRecOn with
  | nil => rfl
  | append_singleton entries entry induction =>
      rw [collect_concat, lookup_insertEntry _ _ _ (ascending_collect entries), induction,
        List.reverse_concat, lookup, lookup, List.find?_cons]
      by_cases same : entry.1 = key
      · simp [same]
      · simp [same, Ne.symm same]

theorem lookup_collect_of_last {key : Bytes} {value : α} {before after : List (Bytes × α)}
    (last : ∀ entry ∈ after, entry.1 ≠ key) :
    lookup key (collect (before ++ (key, value) :: after)) = some value := by
  have skipped : after.reverse.find? (fun entry => decide (entry.1 = key)) = none := by
    rw [List.find?_eq_none]
    intro entry member
    simpa using last entry (List.mem_reverse.mp member)
  rw [lookup_collect, lookup, List.reverse_append, List.reverse_cons, List.append_assoc,
    List.find?_append, skipped]
  simp

/-- A key of an entry has the value of an entry. -/
theorem exists_lookup_collect {entries : List (Bytes × α)} {entry : Bytes × α}
    (member : entry ∈ entries) :
    ∃ other ∈ entries, other.1 = entry.1 ∧ lookup entry.1 (collect entries) = some other.2 := by
  have found : (entries.reverse.find? fun other => decide (other.1 = entry.1)).isSome := by
    rw [List.find?_isSome]
    exact ⟨entry, List.mem_reverse.mpr member, by simp⟩
  obtain ⟨other, there⟩ := Option.isSome_iff_exists.mp found
  refine ⟨other, List.mem_reverse.mp (List.mem_of_find?_eq_some there), ?_, ?_⟩
  · simpa using List.find?_some there
  · rw [lookup_collect, lookup, there]
    rfl

end Insertion

/-- A dictionary that is built by insertion is sorted when its values are. -/
theorem sorted_collect {entries : List (Bytes × Bencode)}
    (all : ∀ entry ∈ entries, Sorted entry.2) : Sorted (dict (collect entries)) :=
  .dict (ascending_collect entries) fun entry member => all entry (mem_collect member)

end Bencode
