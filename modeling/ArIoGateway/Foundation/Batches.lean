import Mathlib.Data.List.Destutter
import Mathlib.Data.List.Sort

/-!
# Batches of keyed values

A list of values with keys is sorted, refused when one key has two values, and freed of repetitions;
a list is worked off in batches of a fixed size.
-/

namespace Batches

variable {α β κ : Type*}

/-- The pieces of a list, found in so many rounds. -/
def cut (size : Nat) : (rounds : Nat) → List α → List (List α)
  | 0, _ => []
  | rounds + 1, values =>
      if values.isEmpty then [] else values.take size :: cut size rounds (values.drop size)

/-- The pieces of a list, `chunks`. -/
def chunks (size : Nat) (values : List α) : List (List α) := cut size values.length values

theorem flatten_cut {size : Nat} (positive : 0 < size) {rounds : Nat} {values : List α}
    (enough : values.length ≤ rounds) : (cut size rounds values).flatten = values := by
  induction rounds generalizing values with
  | zero => rw [List.length_eq_zero_iff.mp (Nat.le_zero.mp enough), cut, List.flatten_nil]
  | succ rounds induction =>
      rw [cut]
      split
      · next empty => rw [List.isEmpty_iff.mp empty, List.flatten_nil]
      · next some =>
          have long : values.length ≠ 0 := fun none => some (by
            rw [List.length_eq_zero_iff.mp none, List.isEmpty_nil])
          rw [List.flatten_cons, induction (by rw [List.length_drop]; omega),
            List.take_append_drop]

@[simp] theorem flatten_chunks {size : Nat} (positive : 0 < size) (values : List α) :
    (chunks size values).flatten = values :=
  flatten_cut positive le_rfl

/-- More rounds than elements find the same pieces. -/
theorem cut_eq {size : Nat} (positive : 0 < size) {rounds others : Nat} {values : List α}
    (enough : values.length ≤ rounds) (more : values.length ≤ others) :
    cut size rounds values = cut size others values := by
  induction rounds generalizing others values with
  | zero =>
      rw [List.length_eq_zero_iff.mp (Nat.le_zero.mp enough)]
      cases others <;> rfl
  | succ rounds induction =>
      cases values with
      | nil => cases others <;> rfl
      | cons value values =>
          obtain ⟨others, rfl⟩ : ∃ less, others = less + 1 :=
            ⟨others - 1, by rw [List.length_cons] at more; omega⟩
          rw [cut, cut, @induction others]
          all_goals simp only [List.length_drop, List.length_cons] at *; omega

theorem chunks_append {size : Nat} {piece values : List α} (positive : 0 < size)
    (full : piece.length = size) : chunks size (piece ++ values) = piece :: chunks size values := by
  obtain ⟨first, rest, rfl⟩ := List.exists_cons_of_length_pos (full ▸ positive)
  have long : ((first :: rest) ++ values).length = (rest.length + values.length) + 1 := by simp
  rw [chunks, long, cut, if_neg (by simp), ← full, List.take_left, List.drop_left, chunks]
  exact congrArg _ (cut_eq (by simp) (by omega) le_rfl)

theorem chunks_short {size : Nat} {values : List α} (some : values ≠ [])
    (short : values.length ≤ size) : chunks size values = [values] := by
  obtain ⟨first, rest, rfl⟩ := List.exists_cons_of_ne_nil some
  rw [chunks, List.length_cons, cut, if_neg (by simp), List.take_of_length_le short,
    List.drop_of_length_le short]
  cases rest.length <;> rfl

/-- So many pieces are enough exactly when they hold all elements. -/
theorem length_chunks_le {size count : Nat} {values : List α} (positive : 0 < size) :
    (chunks size values).length ≤ count ↔ values.length ≤ count * size := by
  have all : ∀ {rounds count : Nat} {values : List α}, values.length ≤ rounds →
      ((cut size rounds values).length ≤ count ↔ values.length ≤ count * size) := by
    intro rounds
    induction rounds with
    | zero =>
        intro count values none
        rw [List.length_eq_zero_iff.mp (Nat.le_zero.mp none), cut]
        simp
    | succ rounds induction =>
        intro count values enough
        cases values with
        | nil => simp [cut]
        | cons value values =>
            have rest : ((value :: values).drop size).length ≤ rounds := by
              rw [List.length_drop]
              omega
            rw [cut, if_neg (by simp), List.length_cons]
            cases count with
            | zero => simp
            | succ count =>
                rw [Nat.add_le_add_iff_right, induction rest, List.length_drop, Nat.succ_mul]
                omega
  exact all le_rfl

/-- The full pieces of a list that is filled in bit by bit, and the beginning of the next piece. -/
structure Filled (size : Nat) (values : List α) (full : List (List α)) (rest : List α) : Prop where
  whole : full.flatten ++ rest = values
  sizes : ∀ piece ∈ full, piece.length = size
  short : rest.length < size

namespace Filled

variable {size : Nat} {values rest part : List α} {full : List (List α)}

theorem start (positive : 0 < size) : Filled size ([] : List α) [] [] := ⟨rfl, by simp, positive⟩

theorem more (filled : Filled size values full rest) (short : (rest ++ part).length < size) :
    Filled size (values ++ part) full (rest ++ part) :=
  ⟨by rw [← List.append_assoc, filled.whole], filled.sizes, short⟩

theorem close (filled : Filled size values full rest) (exact : (rest ++ part).length = size) :
    Filled size (values ++ part) (full ++ [rest ++ part]) [] := by
  refine ⟨?_, fun piece member => ?_, lt_of_le_of_lt (Nat.zero_le _) filled.short⟩
  · rw [List.flatten_append, List.append_nil, List.flatten_singleton, ← List.append_assoc,
      filled.whole]
  · rcases List.mem_append.mp member with old | new
    · exact filled.sizes piece old
    · rw [List.mem_singleton.mp new, exact]

theorem chunks_eq (filled : Filled size values full rest) :
    chunks size values = full ++ if rest = [] then [] else [rest] := by
  obtain ⟨rfl, sizes, short⟩ := filled
  have positive : 0 < size := lt_of_le_of_lt (Nat.zero_le _) short
  induction full with
  | nil =>
      rw [List.flatten_nil, List.nil_append, List.nil_append]
      split
      · next none => rw [none]; rfl
      · next some => exact chunks_short some short.le
  | cons piece full induction =>
      obtain ⟨first, others⟩ := List.forall_mem_cons.mp sizes
      rw [List.flatten_cons, List.append_assoc, chunks_append positive first, induction others,
        List.cons_append]

end Filled

/-- Lists of one length are cut at the same places. -/
theorem forall₂_cut (size : Nat) {rounds : Nat} {values : List α} {others : List β}
    (same : values.length = others.length) :
    List.Forall₂ (fun left right => left.length = right.length) (cut size rounds values)
      (cut size rounds others) := by
  induction rounds generalizing values others with
  | zero => exact .nil
  | succ rounds induction =>
      rw [cut, cut]
      cases values with
      | nil =>
          rw [List.length_eq_zero_iff.mp same.symm]
          exact .nil
      | cons value values =>
          cases others with
          | nil => contradiction
          | cons other others =>
              refine .cons ?_ (induction ?_)
              · rw [List.length_take, List.length_take, same]
              · rw [List.length_drop, List.length_drop, same]

/-- Pieces of two lists of one length, put together in pairs, are the pairs of the lists. -/
theorem flatMap_zip_of_forall₂ {pieces : List (List α)} {others : List (List β)}
    (aligned : List.Forall₂ (fun left right => left.length = right.length) pieces others) :
    ((pieces.zip others).flatMap fun piece => piece.1.zip piece.2) =
      pieces.flatten.zip others.flatten := by
  induction aligned with
  | nil => rfl
  | cons same _ induction =>
      rw [List.zip_cons_cons, List.flatMap_cons, induction, List.flatten_cons, List.flatten_cons,
        List.zip_append same]

theorem forall₂_chunks (size : Nat) {values : List α} {others : List β}
    (same : values.length = others.length) :
    List.Forall₂ (fun left right => left.length = right.length)
      (chunks size values) (chunks size others) := by
  rw [chunks, chunks, same]
  exact forall₂_cut size same

theorem flatMap_zip_chunks {size : Nat} (positive : 0 < size) {values : List α} {others : List β}
    (same : values.length = others.length) :
    (((chunks size values).zip (chunks size others)).flatMap fun piece => piece.1.zip piece.2) =
      values.zip others := by
  rw [flatMap_zip_of_forall₂ (forall₂_chunks size same), flatten_chunks positive,
    flatten_chunks positive]

/-- Every value of the second list is related to one of the first. -/
theorem exists_of_mem_right {related : α → β → Prop} {values : List α} {others : List β}
    (all : List.Forall₂ related values others) {other : β} (member : other ∈ others) :
    ∃ value ∈ values, related value other := by
  induction all with
  | nil => exact absurd member List.not_mem_nil
  | cons first _ induction =>
      rcases List.mem_cons.mp member with rfl | later
      · exact ⟨_, List.mem_cons_self, first⟩
      · obtain ⟨value, inside, holds⟩ := induction later
        exact ⟨value, List.mem_cons_of_mem _ inside, holds⟩

/-- Every value of the first list is related to one of the second. -/
theorem exists_of_mem_left {related : α → β → Prop} {values : List α} {others : List β}
    (all : List.Forall₂ related values others) {value : α} (member : value ∈ values) :
    ∃ other ∈ others, related value other :=
  exists_of_mem_right (List.Forall₂.flip all) member

section Sorted

variable [LinearOrder κ] (key : α → κ)

/-- Sort by a key. -/
def sortBy (values : List α) : List α :=
  values.insertionSort fun left right => key left ≤ key right

/-- Two values have different keys. -/
def Differ (left right : α) : Prop := key left ≠ key right

instance : DecidableRel (Differ key) := fun left right =>
  inferInstanceAs (Decidable (key left ≠ key right))

/-- Of neighbours with one key, keep the first. -/
def dedupBy (values : List α) : List α := values.destutter (Differ key)

/-- Neighbours with one key are the same value. -/
def Consistent (values : List α) : Prop :=
  values.IsChain fun left right => key left ≠ key right ∨ left = right

instance [DecidableEq α] (values : List α) : Decidable (Consistent key values) :=
  inferInstanceAs (Decidable (List.IsChain _ _))

@[simp] theorem mem_sortBy {values : List α} {value : α} :
    value ∈ sortBy key values ↔ value ∈ values :=
  List.mem_insertionSort _

theorem pairwise_sortBy (values : List α) :
    (sortBy key values).Pairwise fun left right => key left ≤ key right := by
  have total : Std.Total fun left right : α => key left ≤ key right :=
    ⟨fun left right => le_total (key left) (key right)⟩
  have transitive : IsTrans α fun left right => key left ≤ key right := ⟨fun _ _ _ => le_trans⟩
  exact List.pairwise_insertionSort _ values

variable {key}

/-- In sorted values, neighbours with one key are the same exactly when any values are. -/
theorem consistent_iff {values : List α}
    (sorted : values.Pairwise fun left right => key left ≤ key right) :
    Consistent key values ↔
      ∀ left ∈ values, ∀ right ∈ values, key left = key right → left = right := by
  constructor
  · intro consistent
    induction values with
    | nil => simp
    | cons value values induction =>
        obtain ⟨least, behind⟩ := List.pairwise_cons.mp sorted
        have unique := induction behind consistent.tail
        have first : ∀ other ∈ values, key value = key other → value = other := by
          cases values with
          | nil => simp
          | cons head tail =>
              intro other member same
              have between : key head ≤ key other := by
                rcases List.mem_cons.mp member with rfl | later
                · exact le_rfl
                · exact (List.pairwise_cons.mp behind).1 other later
              have equal : key value = key head :=
                le_antisymm (least head List.mem_cons_self) (same ▸ between)
              rcases (List.isChain_cons_cons.mp consistent).1 with differ | rfl
              · exact absurd equal differ
              · exact unique value List.mem_cons_self other member same
        intro left leftMember right rightMember same
        rcases List.mem_cons.mp leftMember with rfl | leftLater
        · rcases List.mem_cons.mp rightMember with rfl | rightLater
          · rfl
          · exact first right rightLater same
        · rcases List.mem_cons.mp rightMember with rfl | rightLater
          · exact (first left leftLater same.symm).symm
          · exact unique left leftLater right rightLater same
  · intro unique
    refine List.IsChain.imp_of_mem_imp (fun left right leftMember rightMember _ => ?_)
      sorted.isChain
    by_cases same : key left = key right
    · exact .inr (unique left leftMember right rightMember same)
    · exact .inl same

theorem exists_mem_destutter' {values : List α} {first value : α}
    (member : value ∈ first :: values) :
    ∃ kept ∈ values.destutter' (Differ key) first,
      key kept = key value := by
  induction values generalizing first value with
  | nil =>
      obtain rfl := List.mem_singleton.mp member
      exact ⟨value, List.mem_destutter' _ _ value, rfl⟩
  | cons head tail induction =>
      by_cases differ : Differ key first head
      · rw [List.destutter'_cons_pos _ differ]
        rcases List.mem_cons.mp member with rfl | later
        · exact ⟨value, List.mem_cons_self, rfl⟩
        · obtain ⟨kept, inside, same⟩ := induction later
          exact ⟨kept, List.mem_cons_of_mem _ inside, same⟩
      · rw [List.destutter'_cons_neg _ differ]
        rcases List.mem_cons.mp member with rfl | later
        · exact induction List.mem_cons_self
        · rcases List.mem_cons.mp later with rfl | behind
          · obtain ⟨kept, inside, same⟩ := @induction first first List.mem_cons_self
            exact ⟨kept, inside, same.trans (not_not.mp differ)⟩
          · exact induction (List.mem_cons_of_mem _ behind)

/-- When one key has one value, nothing but repetitions is left out. -/
theorem mem_dedupBy {values : List α}
    (unique : ∀ left ∈ values, ∀ right ∈ values, key left = key right → left = right) {value : α} :
    value ∈ dedupBy key values ↔ value ∈ values := by
  constructor
  · exact fun member => (List.destutter_sublist (Differ key) values).subset member
  · intro member
    cases values with
    | nil => exact absurd member List.not_mem_nil
    | cons first values =>
        rw [dedupBy, List.destutter_cons']
        have found : ∃ kept ∈ values.destutter' (Differ key) first, key kept = key value :=
          exists_mem_destutter' member
        obtain ⟨kept, inside, same⟩ := found
        have there : kept ∈ first :: values :=
          (values.destutter'_sublist (Differ key) first).subset inside
        rwa [← unique kept there value member same]

/-- The keys of sorted values without repetitions are distinct. -/
theorem nodup_dedupBy {values : List α}
    (sorted : values.Pairwise fun left right => key left ≤ key right) :
    ((dedupBy key values).map key).Nodup := by
  have ordered := sorted.sublist (List.destutter_sublist (Differ key) values)
  have apart := List.isChain_destutter (Differ key) values
  rw [dedupBy]
  generalize values.destutter (Differ key) = kept at ordered apart ⊢
  have strict : kept.Pairwise fun left right => key left < key right := by
    have transitive : Trans (fun left right : α => key left < key right)
        (fun left right => key left < key right) fun left right => key left < key right :=
      ⟨fun first second => lt_trans first second⟩
    refine List.IsChain.pairwise ?_
    induction kept with
    | nil => exact .nil
    | cons value kept induction =>
        obtain ⟨least, behind⟩ := List.pairwise_cons.mp ordered
        cases kept with
        | nil => exact .singleton _
        | cons next kept =>
            obtain ⟨differ, others⟩ := List.isChain_cons_cons.mp apart
            exact List.isChain_cons_cons.mpr
              ⟨lt_of_le_of_ne (least next List.mem_cons_self) differ, induction behind others⟩
  exact List.pairwise_map.mpr (strict.imp fun below => ne_of_lt below)

end Sorted

end Batches
