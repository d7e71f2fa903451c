import Mathlib.Algebra.Order.SuccPred
import Mathlib.Data.List.Sort

/-!
# Unions of intervals

Intervals with both of their ends are sorted by their first place and merged while they touch.  The
merged intervals cover the same places, and no two of them touch.

Intervals without their last ends leave no place out, up to some place, when each of them begins no
later than the ones before it have come.
-/

namespace Intervals

variable {α : Type*} [LinearOrder α]

/-- A place of a closed interval. -/
def Within (interval : α × α) (place : α) : Prop := interval.1 ≤ place ∧ place ≤ interval.2

/-- A place of one of several intervals. -/
def Covers (intervals : List (α × α)) (place : α) : Prop :=
  ∃ interval ∈ intervals, Within interval place

instance (interval : α × α) (place : α) : Decidable (Within interval place) :=
  inferInstanceAs (Decidable (_ ∧ _))

/-- The order of pairs: by the first place, then by the last. -/
def Precedes (left right : α × α) : Prop := left.1 < right.1 ∨ left.1 = right.1 ∧ left.2 ≤ right.2

instance : DecidableRel (Precedes (α := α)) := fun left right =>
  inferInstanceAs (Decidable (left.1 < right.1 ∨ left.1 = right.1 ∧ left.2 ≤ right.2))

theorem Precedes.fst_le {left right : α × α} (precedes : Precedes left right) :
    left.1 ≤ right.1 := by
  rcases precedes with before | ⟨same, -⟩
  · exact before.le
  · exact same.le

instance : Std.Total (Precedes (α := α)) where
  total left right := by
    rcases lt_trichotomy left.1 right.1 with before | same | after
    · exact .inl (.inl before)
    · rcases le_total left.2 right.2 with least | least
      · exact .inl (.inr ⟨same, least⟩)
      · exact .inr (.inr ⟨same.symm, least⟩)
    · exact .inr (.inl after)

instance : IsTrans (α × α) Precedes where
  trans left middle right first second := by
    rcases first with first | ⟨same, first⟩
    · exact .inl (lt_of_lt_of_le first second.fst_le)
    · rcases second with second | ⟨equal, second⟩
      · exact .inl (same ▸ second)
      · exact .inr ⟨same.trans equal, first.trans second⟩

@[simp] theorem covers_nil (place : α) : ¬Covers [] place := by
  simp [Covers]

@[simp] theorem covers_cons (interval : α × α) (intervals : List (α × α)) (place : α) :
    Covers (interval :: intervals) place ↔ Within interval place ∨ Covers intervals place := by
  simp [Covers]

theorem covers_perm {intervals others : List (α × α)} (same : intervals.Perm others) (place : α) :
    Covers intervals place ↔ Covers others place := by
  simp only [Covers, same.mem_iff]

variable [Add α] [One α]

/-- Put an interval behind merged ones, the last of them first: extend the last when they touch. -/
def push (merged : List (α × α)) (interval : α × α) : List (α × α) :=
  match merged with
  | last :: earlier =>
      if interval.1 ≤ last.2 + 1 then (last.1, max last.2 interval.2) :: earlier
      else interval :: last :: earlier
  | [] => [interval]

/-- Sort the intervals and merge those that touch. -/
def merge (intervals : List (α × α)) : List (α × α) :=
  ((intervals.insertionSort Precedes).foldl push []).reverse

/-- Merged intervals, the last of them first: in order, apart, and none beginning after `start`. -/
structure Merged (start : α) (merged : List (α × α)) : Prop where
  proper : ∀ interval ∈ merged, interval.1 ≤ interval.2
  apart : merged.Pairwise fun later earlier => earlier.2 + 1 < later.1
  begun : ∀ interval ∈ merged, interval.1 ≤ start

theorem Merged.push {start : α} {merged : List (α × α)} {interval : α × α}
    (holds : Merged start merged) (ordered : start ≤ interval.1)
    (proper : interval.1 ≤ interval.2) : Merged interval.1 (push merged interval) := by
  cases merged with
  | nil =>
      refine ⟨?_, List.pairwise_singleton _ _, ?_⟩
      · simpa [Intervals.push] using proper
      · simp [Intervals.push]
  | cons last earlier =>
      obtain ⟨properLast, properEarlier⟩ := List.forall_mem_cons.mp holds.proper
      obtain ⟨apartLast, apartEarlier⟩ := List.pairwise_cons.mp holds.apart
      obtain ⟨begunLast, begunEarlier⟩ := List.forall_mem_cons.mp holds.begun
      rw [Intervals.push]
      split
      · refine ⟨?_, List.pairwise_cons.mpr ⟨apartLast, apartEarlier⟩, ?_⟩
        · exact List.forall_mem_cons.mpr ⟨properLast.trans (le_max_left _ _), properEarlier⟩
        · exact List.forall_mem_cons.mpr
            ⟨begunLast.trans ordered, fun other member => (begunEarlier other member).trans ordered⟩
      · next separate =>
          refine ⟨?_, List.pairwise_cons.mpr ⟨?_, holds.apart⟩, ?_⟩
          · exact List.forall_mem_cons.mpr ⟨proper, holds.proper⟩
          · have beyond : last.2 + 1 < interval.1 := not_le.mp separate
            intro other member
            rcases List.mem_cons.mp member with rfl | older
            · exact beyond
            · calc
                other.2 + 1 < last.1 := apartLast other older
                _ ≤ start := begunLast
                _ ≤ interval.1 := ordered
          · exact List.forall_mem_cons.mpr
              ⟨le_rfl, fun other member => (holds.begun other member).trans ordered⟩

variable [SuccAddOrder α]

/-- Two intervals that touch cover what the interval over both covers. -/
theorem within_max {last next : α × α} (ordered : last.1 ≤ next.1)
    (touching : next.1 ≤ last.2 + 1) (place : α) :
    Within (last.1, max last.2 next.2) place ↔ Within last place ∨ Within next place := by
  constructor
  · rintro ⟨low, high⟩
    rcases le_or_gt place last.2 with inside | beyond
    · exact .inl ⟨low, inside⟩
    · have reached : next.1 ≤ place :=
        touching.trans (Order.succ_eq_add_one last.2 ▸ Order.succ_le_of_lt beyond)
      rcases le_max_iff.mp high with inside | inside
      · exact .inl ⟨low, inside⟩
      · exact .inr ⟨reached, inside⟩
  · rintro (⟨low, high⟩ | ⟨low, high⟩)
    · exact ⟨low, high.trans (le_max_left _ _)⟩
    · exact ⟨ordered.trans low, high.trans (le_max_right _ _)⟩

theorem covers_push {start : α} {merged : List (α × α)} {interval : α × α}
    (holds : Merged start merged) (ordered : start ≤ interval.1) (place : α) :
    Covers (push merged interval) place ↔ Covers merged place ∨ Within interval place := by
  cases merged with
  | nil => simp [push]
  | cons last earlier =>
      have begun : last.1 ≤ interval.1 :=
        (holds.begun last List.mem_cons_self).trans ordered
      rw [push]
      split
      · next touching =>
          rw [covers_cons, within_max begun touching, covers_cons]
          exact or_right_comm
      · rw [covers_cons]
        exact or_comm

/-- Pushing sorted intervals keeps the merged ones apart and covers what either covers. -/
theorem foldl_push {start : α} {merged intervals : List (α × α)} (holds : Merged start merged)
    (sorted : intervals.Pairwise Precedes) (after : ∀ interval ∈ intervals, start ≤ interval.1)
    (proper : ∀ interval ∈ intervals, interval.1 ≤ interval.2) :
    (∃ start, Merged start (intervals.foldl push merged)) ∧
      ∀ place, Covers (intervals.foldl push merged) place ↔
        Covers merged place ∨ Covers intervals place := by
  induction intervals generalizing start merged with
  | nil => exact ⟨⟨start, holds⟩, fun place => by simp⟩
  | cons interval intervals induction =>
      obtain ⟨afterFirst, -⟩ := List.forall_mem_cons.mp after
      obtain ⟨properFirst, properRest⟩ := List.forall_mem_cons.mp proper
      obtain ⟨least, sortedRest⟩ := List.pairwise_cons.mp sorted
      obtain ⟨kept, covered⟩ := induction (holds.push afterFirst properFirst) sortedRest
        (fun other member => (least other member).fst_le) properRest
      refine ⟨kept, fun place => ?_⟩
      rw [List.foldl_cons, covered, covers_push holds afterFirst, covers_cons, or_assoc]

/-- Merging covers exactly what the intervals cover, with proper intervals that do not touch. -/
theorem merge_spec {intervals : List (α × α)}
    (proper : ∀ interval ∈ intervals, interval.1 ≤ interval.2) :
    (∀ place, Covers (merge intervals) place ↔ Covers intervals place) ∧
      (∀ interval ∈ merge intervals, interval.1 ≤ interval.2) ∧
      (merge intervals).Pairwise fun earlier later => earlier.2 + 1 < later.1 := by
  have same := List.perm_insertionSort Precedes intervals
  have sorted := List.pairwise_insertionSort Precedes intervals
  cases order : intervals.insertionSort Precedes with
  | nil =>
      have none : intervals = [] := List.perm_nil.mp (order ▸ same).symm
      subst none
      simp [merge]
  | cons first rest =>
      have empty : Merged first.1 ([] : List (α × α)) := ⟨by simp, List.Pairwise.nil, by simp⟩
      have after : ∀ interval ∈ intervals.insertionSort Precedes, first.1 ≤ interval.1 := by
        rw [order] at sorted ⊢
        exact List.forall_mem_cons.mpr
          ⟨le_rfl, fun other member => (List.rel_of_pairwise_cons sorted member).fst_le⟩
      obtain ⟨⟨start, kept⟩, covered⟩ := foldl_push empty sorted after
        (fun interval member => proper interval (same.mem_iff.mp member))
      refine ⟨fun place => ?_, fun interval member => ?_, ?_⟩
      · rw [merge, covers_perm (List.reverse_perm _), covered, covers_perm same]
        simp
      · exact kept.proper interval (List.mem_reverse.mp member)
      · exact List.pairwise_reverse.mpr kept.apart

section HalfOpen

variable {α : Type*} [LinearOrder α]

/-- A place of an interval without its last end. -/
def Inside (interval : α × α) (place : α) : Prop := interval.1 ≤ place ∧ place < interval.2

instance (interval : α × α) (place : α) : Decidable (Inside interval place) :=
  inferInstanceAs (Decidable (_ ∧ _))

/-- How far intervals come that begin at `reach`. -/
def furthest (reach : α) (intervals : List (α × α)) : α :=
  intervals.foldl (fun reach interval => max reach interval.2) reach

/-- Every interval begins no later than the ones before it have come. -/
def Gapless (reach : α) : List (α × α) → Prop
  | [] => True
  | interval :: rest => interval.1 ≤ reach ∧ Gapless (max reach interval.2) rest

/-- Sorted intervals that begin before `stop` cover the places from `reach` up to `stop` when they
leave no gap and come as far. -/
theorem gapless_iff {reach stop : α} {intervals : List (α × α)}
    (sorted : intervals.Pairwise Precedes) (early : ∀ interval ∈ intervals, interval.1 < stop) :
    Gapless reach intervals ∧ stop ≤ furthest reach intervals ↔
      ∀ place, reach ≤ place → place < stop → ∃ interval ∈ intervals, Inside interval place := by
  induction intervals generalizing reach with
  | nil =>
      constructor
      · rintro ⟨-, reached⟩ place after before
        exact absurd (lt_of_lt_of_le before reached) (not_lt.mpr after)
      · intro covered
        refine ⟨trivial, not_lt.mp fun short => ?_⟩
        obtain ⟨_, member, -⟩ := covered reach le_rfl short
        cases member
  | cons interval rest induction =>
      obtain ⟨least, sortedRest⟩ := List.pairwise_cons.mp sorted
      obtain ⟨first, earlyRest⟩ := List.forall_mem_cons.mp early
      have later := @induction (max reach interval.2) sortedRest earlyRest
      constructor
      · rintro ⟨⟨begun, gapless⟩, reached⟩ place after before
        rcases lt_or_ge place interval.2 with inside | beyond
        · exact ⟨interval, List.mem_cons_self, begun.trans after, inside⟩
        · obtain ⟨other, member, inside⟩ :=
            later.mp ⟨gapless, reached⟩ place (max_le after beyond) before
          exact ⟨other, List.mem_cons_of_mem _ member, inside⟩
      · intro covered
        have begun : interval.1 ≤ reach := by
          apply not_lt.mp
          intro gap
          obtain ⟨other, member, low, -⟩ := covered reach le_rfl (gap.trans first)
          rcases List.mem_cons.mp member with rfl | behind
          · exact absurd low (not_le.mpr gap)
          · exact absurd ((least other behind).fst_le.trans low) (not_le.mpr gap)
        obtain ⟨gapless, reached⟩ := later.mpr fun place after before => by
          obtain ⟨other, member, inside⟩ := covered place ((le_max_left _ _).trans after) before
          rcases List.mem_cons.mp member with rfl | behind
          · exact absurd inside.2 (not_lt.mpr ((le_max_right _ _).trans after))
          · exact ⟨other, behind, inside⟩
        exact ⟨⟨begun, gapless⟩, reached⟩

end HalfOpen

end Intervals
