import ArIoGateway.Foundation.Intervals
import ArIoGateway.Objects

/-!
# Cached ranges

The database knows which ranges of a transaction are cached, one row for every chunk.  Whether the
rows have a whole range is decided by one query: the rows at the range are sorted, and each of them
is compared with the furthest end of the ones before it.
-/

namespace ArIoGateway

open Intervals

/-- A row of `cache_chunks` under the checks of the table. -/
structure ChunkRow where
  blockHash : Bytes
  txStart : Nat
  startOffset : Nat
  endOffset : Nat
  hash : FixedBytes 32
  placed : 0 < startOffset
  full : startOffset < endOffset
  short : endOffset - startOffset ≤ 262144

/-- The rows of `ranges` with their `previous_end`, the furthest end of the rows before them. -/
def previousEnds : (previous : Option Nat) → List (Nat × Nat) → List ((Nat × Nat) × Option Nat)
  | _, [] => []
  | previous, range :: rest =>
      (range, previous) :: previousEnds (some (previous.elim range.2 (max · range.2))) rest

/-- The rows of a transaction that have something of a range, in the order of the window. -/
def rangesAt (chunks : List ChunkRow) (block : Bytes) (txStart start stop : Nat) :
    List (Nat × Nat) :=
  ((chunks.filter fun chunk => chunk.blockHash = block ∧ chunk.txStart = txStart ∧
      chunk.startOffset < stop ∧ start < chunk.endOffset).map
    fun chunk => (chunk.startOffset, chunk.endOffset)).insertionSort Precedes

/-- `cached_range_complete`.  The aggregates have no value where there are no rows. -/
def cachedRangeComplete (chunks : List ChunkRow) (block : Bytes) (txStart start stop : Nat) :
    Bool :=
  if start = stop then true
  else
    let ranges := rangesAt chunks block txStart start stop
    match (ranges.map Prod.fst).min?, (ranges.map Prod.snd).max? with
    | some first, some last =>
        first ≤ start && stop ≤ last &&
          (previousEnds none ranges).all fun row => row.1.1 ≤ row.2.getD start
    | _, _ => false

/-- The comparisons of the query say that there is no gap, as no row ends before the range. -/
theorem previousEnds_all {start reach : Nat} {previous : Option Nat} {ranges : List (Nat × Nat)}
    (same : previous.getD start = reach) (after : start ≤ reach)
    (ends : ∀ range ∈ ranges, start < range.2) :
    ((previousEnds previous ranges).all fun row => row.1.1 ≤ row.2.getD start) = true ↔
      Gapless reach ranges := by
  induction ranges generalizing previous reach with
  | nil => simp [previousEnds, Gapless]
  | cons range rest induction =>
      obtain ⟨first, others⟩ := List.forall_mem_cons.mp ends
      have next : (some (previous.elim range.2 (max · range.2))).getD start = max reach range.2 := by
        cases previous with
        | none =>
            rw [← same]
            exact (max_eq_right first.le).symm
        | some previous =>
            rw [← same]
            rfl
      rw [previousEnds, List.all_cons, Bool.and_eq_true, decide_eq_true_eq, same,
        induction next (after.trans (le_max_left _ _)) others]
      rfl

theorem max?_snd_eq_furthest {start : Nat} {range : Nat × Nat} {rest : List (Nat × Nat)}
    (ends : ∀ other ∈ range :: rest, start < other.2) :
    ((range :: rest).map Prod.snd).max? = some (furthest start (range :: rest)) := by
  have first := ends range List.mem_cons_self
  rw [List.map_cons, List.max?_cons', List.foldl_map, furthest, List.foldl_cons,
    max_eq_right first.le]

/-- What the query finds: the rows leave no gap in the range. -/
theorem cachedRangeComplete_iff {chunks : List ChunkRow} {block : Bytes}
    {txStart start stop : Nat} (ordered : start < stop) :
    cachedRangeComplete chunks block txStart start stop = true ↔
      Gapless start (rangesAt chunks block txStart start stop) ∧
        stop ≤ furthest start (rangesAt chunks block txStart start stop) := by
  have ends : ∀ range ∈ rangesAt chunks block txStart start stop, start < range.2 := by
    intro range member
    rw [rangesAt, (List.perm_insertionSort _ _).mem_iff] at member
    obtain ⟨chunk, selected, rfl⟩ := List.mem_map.mp member
    exact (of_decide_eq_true (List.mem_filter.mp selected).2).2.2.2
  rw [cachedRangeComplete, if_neg ordered.ne]
  cases rows : rangesAt chunks block txStart start stop with
  | nil => simpa [furthest, Gapless] using ordered
  | cons range rest =>
      rw [rows] at ends
      have begun : (none : Option Nat).getD start = start := rfl
      have gapless := previousEnds_all begun le_rfl ends
      simp only [max?_snd_eq_furthest ends]
      rw [List.map_cons, List.min?_cons']
      simp only [Bool.and_eq_true, decide_eq_true_eq, gapless]
      constructor
      · rintro ⟨⟨-, last⟩, holds⟩
        exact ⟨holds, last⟩
      · rintro ⟨holds, last⟩
        refine ⟨⟨le_trans ?_ holds.1, last⟩, holds⟩
        exact List.min_le_of_mem List.mem_cons_self

/-- A range is complete exactly when a cached chunk of the transaction has each byte of it. -/
theorem cached_range_complete_iff_covered (chunks : List ChunkRow) (block : Bytes)
    (txStart start stop : Nat) (ordered : start ≤ stop) :
    cachedRangeComplete chunks block txStart start stop = true ↔
      ∀ place, start ≤ place → place < stop →
        ∃ chunk ∈ chunks, chunk.blockHash = block ∧ chunk.txStart = txStart ∧
          chunk.startOffset ≤ place ∧ place < chunk.endOffset := by
  rcases ordered.eq_or_lt with rfl | full
  · simp only [cachedRangeComplete, if_true, true_iff]
    intro place after before
    omega
  rw [cachedRangeComplete_iff full, rangesAt, gapless_iff (List.pairwise_insertionSort _ _)]
  · apply forall_congr'
    intro place
    apply forall₂_congr
    intro after before
    simp only [(List.perm_insertionSort _ _).mem_iff, List.mem_map, List.mem_filter,
      decide_eq_true_eq, Inside]
    constructor
    · rintro ⟨_, ⟨chunk, ⟨member, block, transaction, -⟩, rfl⟩, low, high⟩
      exact ⟨chunk, member, block, transaction, low, high⟩
    · rintro ⟨chunk, member, block, transaction, low, high⟩
      refine ⟨_, ⟨chunk, ⟨member, block, transaction, ?_, ?_⟩, rfl⟩, low, high⟩
      · omega
      · omega
  · intro range member
    rw [(List.perm_insertionSort _ _).mem_iff] at member
    obtain ⟨chunk, selected, rfl⟩ := List.mem_map.mp member
    exact (of_decide_eq_true (List.mem_filter.mp selected).2).2.2.1

/-- A chunk of a transaction that starts at 100. -/
def exampleChunk (start width : Nat) (bounds : 0 < start ∧ 0 < width ∧ width ≤ 262144) :
    ChunkRow where
  blockHash := utf8 "block"
  txStart := 100
  startOffset := start
  endOffset := start + width
  hash := ⟨List.replicate 32 0, rfl⟩
  placed := bounds.1
  full := by omega
  short := by omega

theorem cached_range_complete_iff_covered_sample :
    cachedRangeComplete [exampleChunk 130 40 (by decide), exampleChunk 100 60 (by decide),
      exampleChunk 110 5 (by decide)] (utf8 "block") 100 105 165 = true := by
  apply (cached_range_complete_iff_covered _ _ 100 105 165 (by decide)).mpr
  intro place after before
  rcases lt_or_ge place 160 with first | second
  · refine ⟨exampleChunk 100 60 (by decide), by simp, rfl, rfl, ?_, first⟩
    exact le_trans (by decide) after
  · refine ⟨exampleChunk 130 40 (by decide), by simp, rfl, rfl, ?_, ?_⟩
    · exact le_trans (by decide) second
    · exact lt_of_lt_of_le before (by decide)

end ArIoGateway
