import Mathlib.Data.List.Range
import Mathlib.Data.Nat.Log
import Mathlib.Tactic.Ring

/-!
# Balanced hash trees

The reference tree of a depth halves its leaves at every level; leaves that are missing are blank.
A tree that is built by joining the elements of a layer in pairs has the same nodes, and the nodes of
any level give the root again when missing nodes are taken as trees of blank leaves.
-/

namespace HashTrees

variable {α : Type*} (join : α → α → α) (blank : α)

/-- Join the elements of a layer in pairs; an element without a partner is dropped. -/
def pairUp : List α → List α
  | left :: right :: rest => join left right :: pairUp rest
  | _ => []

/-- The root of the balanced tree of a depth. -/
def root : (depth : Nat) → List α → α
  | 0, leaves => leaves.headD blank
  | depth + 1, leaves =>
      join (root depth (leaves.take (2 ^ depth))) (root depth (leaves.drop (2 ^ depth)))

/-- The first nodes of a height, as many as a number says. -/
def level (height count : Nat) (leaves : List α) : List α :=
  (List.range count).map fun place => root join blank height (leaves.drop (place * 2 ^ height))

variable {join blank}

/-- The root takes no leaves beyond those of its depth. -/
theorem root_take {depth width : Nat} {leaves : List α} (wide : 2 ^ depth ≤ width) :
    root join blank depth (leaves.take width) = root join blank depth leaves := by
  induction depth generalizing width leaves with
  | zero =>
      obtain ⟨width, rfl⟩ : ∃ less, width = less + 1 := ⟨width - 1, by omega⟩
      cases leaves <;> rfl
  | succ depth induction =>
      rw [pow_succ] at wide
      rw [root, root, List.take_take, Nat.min_eq_left (by omega), List.drop_take,
        @induction (width - 2 ^ depth) (leaves.drop (2 ^ depth)) (by omega)]

/-- Blank leaves may be written out. -/
theorem root_append_blank (depth count : Nat) (leaves : List α) :
    root join blank depth (leaves ++ List.replicate count blank) =
      root join blank depth leaves := by
  induction depth generalizing count leaves with
  | zero =>
      cases leaves with
      | nil => cases count <;> rfl
      | cons leaf leaves => rfl
  | succ depth induction =>
      rw [root, root, List.take_append, List.drop_append, List.take_replicate,
        List.drop_replicate, induction, induction]

theorem length_level (height count : Nat) (leaves : List α) :
    (level join blank height count leaves).length = count := by
  simp [level]

theorem take_level {height count first : Nat} (leaves : List α) (within : first ≤ count) :
    (level join blank height count leaves).take first = level join blank height first leaves := by
  rw [level, level, ← List.map_take, List.take_range, Nat.min_eq_left within]

theorem drop_level (height count first : Nat) (leaves : List α) :
    (level join blank height count leaves).drop first =
      level join blank height (count - first) (leaves.drop (first * 2 ^ height)) := by
  apply List.ext_getElem
  · simp [level]
  · intro place _ _
    simp only [level, List.getElem_drop, List.getElem_map, List.getElem_range, List.drop_drop]
    rw [Nat.add_mul]

theorem level_append_blank (height count blanks : Nat) (leaves : List α) :
    level join blank height count (leaves ++ List.replicate blanks blank) =
      level join blank height count leaves := by
  refine List.map_congr_left fun place _ => ?_
  rw [List.drop_append, List.drop_replicate, root_append_blank]

/-- The nodes of height 0 are the leaves. -/
theorem level_zero (leaves : List α) : level join blank 0 leaves.length leaves = leaves := by
  apply List.ext_getElem
  · simp [level]
  · intro place inside _
    simp only [level, List.length_map, List.length_range] at inside
    simp only [level, List.getElem_map, List.getElem_range, pow_zero, Nat.mul_one, root]
    rw [List.drop_eq_getElem_cons inside]
    rfl

/-- Leaves that are filled up with blanks. -/
theorem append_blank_eq_level {count : Nat} {leaves : List α} (fits : leaves.length ≤ count) :
    leaves ++ List.replicate (count - leaves.length) blank = level join blank 0 count leaves := by
  have whole := @level_zero _ join blank (leaves ++ List.replicate (count - leaves.length) blank)
  rw [level_append_blank, List.length_append, List.length_replicate,
    Nat.add_sub_of_le fits] at whole
  exact whole.symm

theorem pairUp_map_range (f : Nat → α) (count : Nat) :
    pairUp join ((List.range (2 * count)).map f) =
      (List.range count).map fun place => join (f (2 * place)) (f (2 * place + 1)) := by
  induction count generalizing f with
  | zero => rfl
  | succ count induction =>
      have next := induction fun place => f (place + 2)
      rw [Nat.mul_succ, List.range_succ_eq_map, List.range_succ_eq_map,
        List.range_succ_eq_map (n := count)]
      simp only [List.map_cons, List.map_map, Function.comp_def, pairUp, List.cons.injEq]
      exact ⟨trivial, next⟩

/-- Joining the nodes of a height in pairs gives those of the next one. -/
theorem pairUp_level (height count : Nat) (leaves : List α) :
    pairUp join (level join blank height (2 * count) leaves) =
      level join blank (height + 1) count leaves := by
  rw [level, pairUp_map_range, level]
  refine List.map_congr_left fun place _ => ?_
  rw [root, root_take le_rfl, List.drop_drop]
  congr 2
  · rw [pow_succ]
    congr 1
    ring
  · congr 1
    rw [pow_succ]
    ring

/-- Nodes of a height give the root, with trees of blank leaves for those that are missing. -/
theorem root_level {height count : Nat} (depth : Nat) {leaves : List α}
    (covers : leaves.length ≤ count * 2 ^ height) :
    root join (root join blank height []) depth (level join blank height count leaves) =
      root join blank (height + depth) leaves := by
  induction depth generalizing count leaves with
  | zero =>
      cases count with
      | zero =>
          rw [Nat.zero_mul] at covers
          rw [List.length_eq_zero_iff.mp (Nat.le_zero.mp covers)]
          rfl
      | succ count => simp [level, root, List.range_succ_eq_map]
  | succ depth induction =>
      have size : 2 ^ (height + depth) = 2 ^ depth * 2 ^ height := by rw [pow_add, Nat.mul_comm]
      rw [← Nat.add_assoc, root, root, drop_level, ← size]
      congr 1
      · have same : (level join blank height count leaves).take (2 ^ depth) =
            level join blank height (min (2 ^ depth) count)
              (leaves.take (2 ^ (height + depth))) := by
          rw [level, level, ← List.map_take, List.take_range]
          refine List.map_congr_left fun place inside => ?_
          have inside := List.mem_range.mp inside
          have room : (place + 1) * 2 ^ height ≤ 2 ^ depth * 2 ^ height :=
            Nat.mul_le_mul_right _ (by omega)
          rw [Nat.succ_mul] at room
          rw [List.drop_take, root_take (by omega)]
        rw [same]
        apply induction
        rw [List.length_take, size]
        rcases Nat.le_total (2 ^ depth) count with few | many
        · rw [Nat.min_eq_left few]
          exact Nat.min_le_left _ _
        · rw [Nat.min_eq_right many]
          exact (Nat.min_le_right _ _).trans covers
      · apply induction
        rw [List.length_drop, size, Nat.sub_mul]
        exact Nat.sub_le_sub_right covers _

end HashTrees
