import ArIoGateway.PendingScan

/-!
# Complete scans

The pages of the scan for pending bundles are the steps of two sweeps over the pending roots, one
up from the boundary and one down.  Between two wraps each root between the start and the height
with metadata is returned once.
-/

namespace ArIoGateway

open Ranking

/-- The keys that pages are sorted by. -/
def PendingRoot.place (root : PendingRoot) : Fin (2 ^ 63) ×ₗ Fin (2 ^ 31) :=
  toLex (root.height, root.position)

namespace BundleTables

variable (tables : BundleTables)

/-- The canonical roots that are not indexed completely, at heights that the totals do not count as
completed. -/
def pendingRoots : List PendingRoot :=
  (tables.canonicalBlocks.filter fun block =>
    tables.imported block && tables.unfinished block).flatMap tables.blockRoots

/-- The pending roots in the order of a scan. -/
def sortedRoots (sort : SortOrder) : List PendingRoot :=
  tables.pendingRoots.insertionSort (sort.ordered PendingRoot.place)

variable {tables}

theorem mem_blockRoots {block : CanonicalBlock} {root : PendingRoot}
    (member : root ∈ tables.blockRoots block) :
    root.height = block.height ∧ ∃ row ∈ tables.transactions,
      row.blockHash = block.blockHash ∧ tables.rootAt block row = some root := by
  obtain ⟨row, inside, found⟩ := List.mem_filterMap.mp member
  obtain ⟨stored, same⟩ := List.mem_filter.mp inside
  refine ⟨?_, row, stored, by simpa using same, found⟩
  obtain ⟨object, _, rest⟩ := Option.bind_eq_some_iff.mp found
  obtain ⟨placement, _, rest⟩ := Option.bind_eq_some_iff.mp rest
  split at rest
  · cases rest
  · rw [← Option.some.inj rest]

theorem rootAt_position {block : CanonicalBlock} {row : BlockTransaction} {root : PendingRoot}
    (found : tables.rootAt block row = some root) : root.position = row.position := by
  obtain ⟨object, _, rest⟩ := Option.bind_eq_some_iff.mp found
  obtain ⟨placement, _, rest⟩ := Option.bind_eq_some_iff.mp rest
  split at rest
  · cases rest
  · rw [← Option.some.inj rest]

/-- The roots of a block have different positions. -/
theorem nodup_positions (block : CanonicalBlock) :
    ((tables.blockRoots block).map PendingRoot.position).Nodup := by
  have once := List.Nodup.of_map _ tables.positionsOnce
  have distinct : (tables.transactions.filter fun row =>
      row.blockHash = block.blockHash).Pairwise fun first second =>
        first.position ≠ second.position := by
    refine (once.filter _).imp_of_mem fun {first second} firstMember secondMember differ same => ?_
    obtain ⟨firstStored, firstHash⟩ := List.mem_filter.mp firstMember
    obtain ⟨secondStored, secondHash⟩ := List.mem_filter.mp secondMember
    simp only [decide_eq_true_eq] at firstHash secondHash
    exact differ (List.inj_on_of_nodup_map tables.positionsOnce firstStored secondStored
      (by rw [firstHash, secondHash, same]))
  rw [List.Nodup, List.pairwise_map, blockRoots, List.pairwise_filterMap]
  refine distinct.imp fun differ root found other otherFound same => differ ?_
  rw [← rootAt_position found, same, rootAt_position otherFound]

/-- No two pending roots are at one place. -/
theorem nodup_places : (tables.pendingRoots.map PendingRoot.place).Nodup := by
  have once : (tables.canonicalBlocks.filter fun block =>
      tables.imported block && tables.unfinished block).Pairwise fun first second =>
        first.height ≠ second.height := by
    have heights := tables.heightsOnce
    rw [List.Nodup, List.pairwise_map] at heights
    exact heights.filter _
  rw [List.Nodup, List.pairwise_map, pendingRoots, List.pairwise_flatMap]
  constructor
  · intro block _
    have positions := tables.nodup_positions block
    rw [List.Nodup, List.pairwise_map] at positions
    exact positions.imp fun differ same => differ (congrArg (fun place => (ofLex place).2) same)
  · refine once.imp fun differ root member other otherMember same => differ ?_
    rw [← (mem_blockRoots member).1, ← (mem_blockRoots otherMember).1]
    exact congrArg (fun place => (ofLex place).1) same

theorem separates {sort : SortOrder} :
    Separates (sort.ordered PendingRoot.place) tables.pendingRoots :=
  fun _ firstMember _ secondMember earlier later =>
    List.inj_on_of_nodup_map nodup_places firstMember secondMember
      (rank_eq_of_ordered earlier later)

end BundleTables

namespace BundleCursor

variable {first second : BundleCursor}

theorem lt_iff : first < second ↔ first.rank < second.rank := Iff.rfl

theorem height_le_of_lt (less : first < second) : first.height ≤ second.height := by
  rw [lt_iff, rank, rank, Prod.Lex.toLex_lt_toLex] at less
  omega

theorem lt_of_height_lt (less : first.height < second.height) : first < second := by
  rw [lt_iff, rank, rank, Prod.Lex.toLex_lt_toLex]
  exact .inl less

/-- What the check of the query accepts. -/
def Valid (cursor : BundleCursor) : Prop :=
  cursor.id.length = 32 ∧ (cursor.kind = 0 ∨ cursor.kind = 1)

theorem valid_root (root : PendingRoot) : root.cursor.Valid := ⟨root.id.property, .inl rfl⟩

theorem valid_lastAt (height : Nat) : (lastAt height).Valid := ⟨List.length_replicate, .inr rfl⟩

theorem valid_firstAt (height : Nat) : (firstAt height).Valid := ⟨List.length_replicate, .inl rfl⟩

end BundleCursor

/-- Whether a cursor is behind another one in the direction of a scan. -/
def SortOrder.Passes (sort : SortOrder) (first second : BundleCursor) : Prop :=
  sort.comparison second first = true

instance (sort : SortOrder) : DecidableRel sort.Passes := fun first second =>
  inferInstanceAs (Decidable (sort.comparison second first = true))

theorem SortOrder.passes_heightAsc {first second : BundleCursor} :
    SortOrder.heightAsc.Passes first second ↔ first < second := decide_eq_true_iff

theorem SortOrder.passes_heightDesc {first second : BundleCursor} :
    SortOrder.heightDesc.Passes first second ↔ second < first := decide_eq_true_iff

@[simp] theorem SortOrder.decide_passes (sort : SortOrder) (first second : BundleCursor) :
    decide (sort.Passes first second) = sort.comparison second first := by
  rw [Bool.eq_iff_iff, decide_eq_true_eq]
  rfl

instance (sort : SortOrder) : IsStrictOrder BundleCursor sort.Passes where
  irrefl cursor := by cases sort <;> simp [SortOrder.Passes, SortOrder.comparison]
  trans first second third := by
    cases sort <;> simp only [SortOrder.Passes, SortOrder.comparison, decide_eq_true_eq]
    · exact lt_trans
    · exact fun earlier later => lt_trans later earlier

namespace BundleTables

variable {tables : BundleTables} {sort : SortOrder}

/-- Of two roots, the one at the later place has the later cursor. -/
theorem passes_iff {first second : PendingRoot} (differ : first.place ≠ second.place) :
    sort.Passes first.cursor second.cursor ↔ sort.ordered PendingRoot.place first second := by
  have key : ∀ {left right : PendingRoot}, left.place ≠ right.place →
      (left.cursor < right.cursor ↔ left.place ≤ right.place) := by
    intro left right apart
    have other : left.height.val ≠ right.height.val ∨ left.position.val ≠ right.position.val := by
      by_contra same
      push Not at same
      apply apart
      rw [PendingRoot.place, PendingRoot.place, Fin.ext same.1, Fin.ext same.2]
    change left.cursor.rank < right.cursor.rank ↔ _
    rw [BundleCursor.rank, BundleCursor.rank, PendingRoot.place, PendingRoot.place,
      Prod.Lex.toLex_lt_toLex, Prod.Lex.toLex_lt_toLex, Prod.Lex.toLex_le_toLex]
    simp only [PendingRoot.cursor, Fin.lt_def, Fin.le_def, Fin.ext_iff]
    omega
  cases sort with
  | heightAsc => simpa [SortOrder.Passes, SortOrder.comparison, SortOrder.ordered] using key differ
  | heightDesc =>
      simpa [SortOrder.Passes, SortOrder.comparison, SortOrder.ordered] using key differ.symm

/-- The sorted roots have ever later cursors. -/
theorem pairwise_sortedRoots : (tables.sortedRoots sort).Pairwise fun first second =>
    sort.Passes first.cursor second.cursor := by
  have same := List.perm_insertionSort (sort.ordered PendingRoot.place) tables.pendingRoots
  have once := (same.map PendingRoot.place).nodup_iff.mpr nodup_places
  rw [List.Nodup, List.pairwise_map] at once
  exact ((List.pairwise_insertionSort _ tables.pendingRoots).and once).imp fun both =>
    (passes_iff both.2).mpr both.1

/-- The first rows of a block are the same by position and by place. -/
theorem top_position {block : CanonicalBlock} {rows : List PendingRoot}
    (part : rows.Sublist (tables.blockRoots block)) (limit : Nat) :
    top (sort.ordered PendingRoot.position) limit rows =
      top (sort.ordered PendingRoot.place) limit rows := by
  have positions := (tables.nodup_positions block).sublist (part.map _)
  have heights : ∀ root ∈ rows, root.height = block.height := fun root member =>
    (mem_blockRoots (part.subset member)).1
  have apart : Separates (sort.ordered PendingRoot.place) rows :=
    fun first firstMember second secondMember earlier later =>
      List.inj_on_of_nodup_map positions firstMember secondMember
        (congrArg (fun place => (ofLex place).2) (rank_eq_of_ordered earlier later))
  have perm := List.perm_insertionSort (sort.ordered PendingRoot.position) rows
  have order : (rows.insertionSort (sort.ordered PendingRoot.position)).Pairwise
      (sort.ordered PendingRoot.place) := by
    refine (List.pairwise_insertionSort (sort.ordered PendingRoot.position) rows).imp_of_mem
      fun {first second} firstMember secondMember ordered => ?_
    have sameHeight := (heights first (perm.subset firstMember)).trans
      (heights second (perm.subset secondMember)).symm
    cases sort with
    | heightAsc =>
        exact Prod.Lex.toLex_le_toLex.mpr (.inr ⟨sameHeight, ordered⟩)
    | heightDesc =>
        exact Prod.Lex.toLex_le_toLex.mpr (.inr ⟨sameHeight.symm, ordered⟩)
  rw [top, top, insertionSort_eq apart order perm]

theorem reaches_of_passes {cursor : BundleCursor} {root : PendingRoot}
    (passes : sort.Passes cursor root.cursor) : sort.reaches root.height cursor.height = true := by
  cases sort with
  | heightAsc => exact decide_eq_true (BundleCursor.height_le_of_lt (of_decide_eq_true passes))
  | heightDesc => exact decide_eq_true (BundleCursor.height_le_of_lt (of_decide_eq_true passes))

/-- Parts that contribute nothing can be left out. -/
theorem flatMap_filter {α β : Type} {parts : List α} {rows : α → List β} {chosen : α → Bool}
    (empty : ∀ part ∈ parts, chosen part = false → rows part = []) :
    (parts.filter chosen).flatMap rows = parts.flatMap rows := by
  induction parts with
  | nil => rfl
  | cons part parts induction =>
      obtain ⟨first, others⟩ := List.forall_mem_cons.mp empty
      cases kept : chosen part with
      | true => simp [kept, induction others]
      | false => simp [kept, induction others, first kept]

/-- Whether a root is behind a cursor and in a range of heights. -/
def keeps (sort : SortOrder) (after : Option BundleCursor) (low high : Nat) (root : PendingRoot) :
    Bool :=
  decide (low ≤ root.height.val ∧ root.height.val ≤ high) &&
    after.all fun cursor => sort.comparison root.cursor cursor

/-- The conditions on blocks and on their rows are a condition on the pending roots. -/
theorem flatMap_keeps (after : Option BundleCursor) (low high : Nat) :
    (tables.canonicalBlocks.filter fun block =>
      tables.imported block && tables.unfinished block &&
        (after.all fun cursor => sort.reaches block.height cursor.height) &&
        (some (low, high)).all fun bounds =>
          decide (bounds.1 ≤ block.height.val ∧ block.height.val ≤ bounds.2)).flatMap
      (fun block => (tables.blockRoots block).filter fun root =>
        after.all fun cursor => sort.comparison root.cursor cursor) =
      tables.pendingRoots.filter (keeps sort after low high) := by
  let near : CanonicalBlock → Bool := fun block =>
    (after.all fun cursor => sort.reaches block.height cursor.height) &&
      decide (low ≤ block.height.val ∧ block.height.val ≤ high)
  have far : ∀ block, near block = false →
      (tables.blockRoots block).filter (keeps sort after low high) = [] := by
    intro block closed
    rw [List.filter_eq_nil_iff]
    intro root member kept
    obtain ⟨inside, passed⟩ := (Bool.and_eq_true _ _).mp kept
    rw [(mem_blockRoots member).1] at inside
    have reached : (after.all fun cursor => sort.reaches block.height cursor.height) = true := by
      cases after with
      | none => rfl
      | some cursor =>
          rw [← (mem_blockRoots member).1]
          exact reaches_of_passes passed
    simp only [near, reached, inside, Bool.and_self] at closed
    exact Bool.false_ne_true closed.symm
  calc
    _ = ((tables.canonicalBlocks.filter fun block =>
          tables.imported block && tables.unfinished block).filter near).flatMap
        fun block => (tables.blockRoots block).filter fun root =>
          after.all fun cursor => sort.comparison root.cursor cursor := by
      rw [List.filter_filter]
      congr 2
      funext block
      simp only [near, Option.all_some]
      cases tables.imported block && tables.unfinished block <;> simp
    _ = ((tables.canonicalBlocks.filter fun block =>
          tables.imported block && tables.unfinished block).filter near).flatMap
        fun block => (tables.blockRoots block).filter (keeps sort after low high) := by
      refine List.flatMap_congr fun block member => List.filter_congr fun root rooted => ?_
      have inside := ((Bool.and_eq_true _ _).mp (List.mem_filter.mp member).2).2
      rw [keeps, (mem_blockRoots rooted).1, inside, Bool.true_and]
    _ = tables.pendingRoots.filter (keeps sort after low high) := by
      rw [flatMap_filter fun block _ => far block, pendingRoots, List.filter_flatMap]

/-- The rows of the query are a page of the sorted roots. -/
theorem rootRows_eq (after : Option BundleCursor) (low high : Nat) :
    tables.rootRows sort after (some (low, high)) =
      Sweeps.page sort.Passes PendingRoot.cursor bundlePageLimit
        (fun root => low ≤ root.height.val ∧ root.height.val ≤ high) after
        (tables.sortedRoots sort) := by
  have fewer : Separates (sort.ordered PendingRoot.place)
      (tables.pendingRoots.filter (keeps sort after low high)) :=
    separates.mono (List.filter_subset_self _)
  have tops : ∀ block, top (sort.ordered PendingRoot.position) bundlePageLimit
      ((tables.blockRoots block).filter fun root =>
        after.all fun cursor => sort.comparison root.cursor cursor) =
      top (sort.ordered PendingRoot.place) bundlePageLimit
        ((tables.blockRoots block).filter fun root =>
          after.all fun cursor => sort.comparison root.cursor cursor) :=
    fun block => top_position List.filter_sublist bundlePageLimit
  rw [rootRows]
  simp only [tops]
  change top (sort.ordered PendingRoot.place) bundlePageLimit _ = _
  rw [top_flatMap bundlePageLimit (by rw [flatMap_keeps]; exact fewer), flatMap_keeps, top,
    insertionSort_filter separates, Sweeps.page, Sweeps.rest, List.filter_filter, sortedRoots]
  congr 2
  funext root
  simp [keeps]

/-- A page of the query over a range of heights. -/
theorem pendingBundlesAfter_eq {after : Option BundleCursor} {low high : Nat} {descending : Bool}
    (valid : ∀ cursor ∈ after, cursor.Valid)
    (order : low ≤ high) (small : high < 2 ^ 63) :
    let rows := Sweeps.page (if descending then SortOrder.heightDesc else .heightAsc).Passes
      PendingRoot.cursor bundlePageLimit
      (fun root => low ≤ root.height.val ∧ root.height.val ≤ high) after
      (tables.sortedRoots (if descending then .heightDesc else .heightAsc))
    tables.pendingBundlesAfter after (some (low, high)) descending =
      .ok ⟨rows.map PendingRoot.entry, rows.getLast?.map PendingRoot.cursor, none⟩ := by
  intro rows
  rw [pendingBundlesAfter, Checked.ensure_of (by exact valid),
    Checked.ensure_of (by simpa using order)]
  simp [Option.mapM, sqlHeight, rootRows_eq, rows]
  omega

/-- A page without rows gets a made-up cursor. -/
theorem passGap_eq {rows : List PendingRoot} {height : Nat} {goes : Prop} [Decidable goes]
    {place : Nat → BundleCursor} (small : height < 2 ^ 63) :
    (if (rows.getLast?.map PendingRoot.cursor).isNone ∧ goes then
      (do return { BundlePage.mk (rows.map PendingRoot.entry)
                    (rows.getLast?.map PendingRoot.cursor) none with
                  after := some (place (← toI64 height)) })
      else pure ⟨rows.map PendingRoot.entry, rows.getLast?.map PendingRoot.cursor, none⟩) =
    Except.ok (BundlePage.mk (rows.map PendingRoot.entry)
      ((rows.getLast?.map PendingRoot.cursor).or (if goes then some (place height) else none))
      none) := by
  rw [toI64, Checked.ensure_of small]
  cases rows.getLast? with
  | none => by_cases goes <;> simp_all [pure, Except.pure]
  | some last => rfl

section Live

variable (tables : BundleTables) (low metadata : Nat)

/-- The roots from a height to the height with metadata, going up. -/
def liveRows : List PendingRoot :=
  (tables.sortedRoots .heightAsc).filter fun root =>
    low ≤ root.height.val ∧ root.height.val ≤ metadata

/-- The rows and the next cursor of a live page. -/
def liveStep (cursor : Option BundleCursor) : List PendingRoot × Option BundleCursor :=
  let rows := Sweeps.page SortOrder.heightAsc.Passes PendingRoot.cursor bundlePageLimit
    (fun root => root.height.val ≤ liveHigh low metadata cursor) cursor
    (tables.liveRows low metadata)
  (rows, (rows.getLast?.map PendingRoot.cursor).or
    (if liveHigh low metadata cursor < metadata then
      some (.lastAt (liveHigh low metadata cursor)) else none))

variable {tables low metadata}

theorem liveFirst_le {cursor : Option BundleCursor} {later : BundleCursor}
    (ahead : ∀ last ∈ cursor, last.height ≤ later.height) :
    liveFirst low cursor ≤ liveFirst low (some later) := by
  cases cursor with
  | none => exact le_max_right _ _
  | some last => exact max_le_max (ahead last rfl) le_rfl

theorem liveHigh_of_short {cursor : Option BundleCursor} (small : metadata < 2 ^ 63)
    (short : liveHigh low metadata cursor < metadata) :
    liveHigh low metadata cursor = liveFirst low cursor + 999 := by
  rw [liveHigh, BundleEntry.saturatingAdd, scanSpan] at short ⊢
  omega

theorem of_mem_liveRows {root : PendingRoot} (member : root ∈ tables.liveRows low metadata) :
    low ≤ root.height.val ∧ root.height.val ≤ metadata :=
  of_decide_eq_true (List.mem_filter.mp member).2

/-- A live page obeys the rule of sweeps. -/
theorem liveStep_step (small : metadata < 2 ^ 63) (cursor : Option BundleCursor) :
    Sweeps.Step SortOrder.heightAsc.Passes PendingRoot.cursor (tables.liveRows low metadata)
      (fun cursor => metadata - liveFirst low cursor) cursor
      (tables.liveStep low metadata cursor) := by
  apply Sweeps.step_of_page (by decide) (pairwise_sortedRoots.filter _)
  · intro first second passes inside
    have least := BundleCursor.height_le_of_lt (SortOrder.passes_heightAsc.mp passes)
    exact decide_eq_true (least.trans (of_decide_eq_true inside))
  · intro last root member
    have inside := (of_mem_liveRows (Sweeps.mem_rest.mp member).1).2
    split at last
    · cases last
    · simp only [decide_eq_true_eq]
      omega
  · intro edge found
    obtain ⟨short, same⟩ := Option.ite_none_right_eq_some.mp found
    obtain rfl := Option.some.inj same
    have span := liveHigh_of_short small short
    refine ⟨fun last known => ?_, fun root _ outside => ?_, ?_⟩
    · obtain rfl := Option.mem_def.mp known
      apply SortOrder.passes_heightAsc.mpr (BundleCursor.lt_of_height_lt _)
      change last.height < liveHigh low metadata (some last)
      rw [span, liveFirst]
      omega
    · rw [decide_eq_false_iff_not, Nat.not_le] at outside
      exact SortOrder.passes_heightAsc.mpr (BundleCursor.lt_of_height_lt outside)
    · change metadata - max (liveHigh low metadata cursor) low < metadata - liveFirst low cursor
      omega

/-- The live half is a complete sweep. -/
theorem live_sweep (small : metadata < 2 ^ 63) (cursor : Option BundleCursor) :
    ∃ pages last, Sweeps.Sweep (tables.liveStep low metadata) cursor pages last ∧
      pages.flatMap Prod.fst =
        Sweeps.rest SortOrder.heightAsc.Passes PendingRoot.cursor cursor
          (tables.liveRows low metadata) ∧
      (∀ page ∈ pages, ∀ place ∈ cursor, SortOrder.heightAsc.Passes place page.2) ∧
      pages.Pairwise fun first second => SortOrder.heightAsc.Passes first.2 second.2 := by
  apply Sweeps.exists_sweep (pairwise_sortedRoots.filter _) (liveStep_step small)
  intro cursor root member
  obtain ⟨inside, ahead⟩ := Sweeps.mem_rest.mp member
  exact Nat.sub_le_sub_left (liveFirst_le fun last known =>
    BundleCursor.height_le_of_lt (SortOrder.passes_heightAsc.mp (ahead last known))) metadata

/-- A live page of a scan is a step of the sweep. -/
theorem livePage_eq {scan : BundleScan} {start : Nat} (valid : ∀ cursor ∈ scan.live, cursor.Valid)
    (above : scan.boundary < metadata) (started : start ≤ metadata) (small : metadata < 2 ^ 63) :
    let step := tables.liveStep (max start (scan.boundary + 1)) metadata scan.live
    tables.livePage scan start metadata = .ok ⟨step.1.map PendingRoot.entry, step.2, none⟩ := by
  intro step
  have least : max start (scan.boundary + 1) ≤
      liveHigh (max start (scan.boundary + 1)) metadata scan.live := by
    have begins : max start (scan.boundary + 1) ≤
        liveFirst (max start (scan.boundary + 1)) scan.live := by
      cases scan.live with
      | none => exact le_rfl
      | some cursor => exact le_max_right _ _
    rw [liveHigh, BundleEntry.saturatingAdd]
    omega
  have most : liveHigh (max start (scan.boundary + 1)) metadata scan.live ≤ metadata :=
    min_le_left _ _
  have narrow := @Sweeps.page_filter _ _ SortOrder.heightAsc.Passes _ PendingRoot.cursor
    (tables.sortedRoots .heightAsc) scan.live bundlePageLimit
    (fun root => root.height.val ≤ liveHigh (max start (scan.boundary + 1)) metadata scan.live)
    (fun root => max start (scan.boundary + 1) ≤ root.height.val ∧ root.height.val ≤ metadata)
    (fun root => max start (scan.boundary + 1) ≤ root.height.val ∧
      root.height.val ≤ liveHigh (max start (scan.boundary + 1)) metadata scan.live) (by
        intro root
        rw [← Bool.decide_and, decide_eq_decide]
        omega)
  have found := @pendingBundlesAfter_eq tables _ _ _ false valid least (most.trans_lt small)
  simp only [Bool.false_eq_true, if_false, ← narrow] at found
  rw [livePage, found, Checked.ok_bind]
  exact passGap_eq (most.trans_lt small)

end Live

section Backfill

variable (tables : BundleTables) (start finish : Nat)

/-- The roots from the start to a height, going down. -/
def backfillRows : List PendingRoot :=
  (tables.sortedRoots .heightDesc).filter fun root =>
    start ≤ root.height.val ∧ root.height.val ≤ finish

/-- The rows and the next cursor of a backfill page. -/
def backfillStep (cursor : Option BundleCursor) : List PendingRoot × Option BundleCursor :=
  let rows := Sweeps.page SortOrder.heightDesc.Passes PendingRoot.cursor bundlePageLimit
    (fun root => backfillLow start finish cursor ≤ root.height.val) cursor
    (tables.backfillRows start finish)
  (rows, (rows.getLast?.map PendingRoot.cursor).or
    (if start < backfillLow start finish cursor then
      some (.firstAt (backfillLow start finish cursor)) else none))

variable {tables start finish}

theorem le_backfillTop {cursor : Option BundleCursor} {later : BundleCursor}
    (ahead : ∀ last ∈ cursor, later.height ≤ last.height) :
    backfillTop finish (some later) ≤ backfillTop finish cursor := by
  cases cursor with
  | none => exact min_le_right _ _
  | some last => exact min_le_min (ahead last rfl) le_rfl

theorem backfillLow_of_short {cursor : Option BundleCursor}
    (short : start < backfillLow start finish cursor) :
    backfillTop finish cursor = backfillLow start finish cursor + 999 := by
  rw [backfillLow, scanSpan] at short ⊢
  omega

theorem of_mem_backfillRows {root : PendingRoot}
    (member : root ∈ tables.backfillRows start finish) :
    start ≤ root.height.val ∧ root.height.val ≤ finish :=
  of_decide_eq_true (List.mem_filter.mp member).2

/-- A backfill page obeys the rule of sweeps. -/
theorem backfillStep_step (cursor : Option BundleCursor) :
    Sweeps.Step SortOrder.heightDesc.Passes PendingRoot.cursor (tables.backfillRows start finish)
      (fun cursor => backfillTop finish cursor - start) cursor
      (tables.backfillStep start finish cursor) := by
  apply Sweeps.step_of_page (by decide) (pairwise_sortedRoots.filter _)
  · intro first second passes inside
    have most := BundleCursor.height_le_of_lt (SortOrder.passes_heightDesc.mp passes)
    exact decide_eq_true ((of_decide_eq_true inside).trans most)
  · intro last root member
    have inside := (of_mem_backfillRows (Sweeps.mem_rest.mp member).1).1
    split at last
    · cases last
    · simp only [decide_eq_true_eq]
      omega
  · intro edge found
    obtain ⟨short, same⟩ := Option.ite_none_right_eq_some.mp found
    obtain rfl := Option.some.inj same
    have span := backfillLow_of_short short
    refine ⟨fun last known => ?_, fun root _ outside => ?_, ?_⟩
    · obtain rfl := Option.mem_def.mp known
      apply SortOrder.passes_heightDesc.mpr (BundleCursor.lt_of_height_lt _)
      change backfillLow start finish (some last) < last.height
      rw [backfillTop] at span
      omega
    · rw [decide_eq_false_iff_not, Nat.not_le] at outside
      exact SortOrder.passes_heightDesc.mpr (BundleCursor.lt_of_height_lt outside)
    · change min (backfillLow start finish cursor) finish - start <
        backfillTop finish cursor - start
      omega

/-- The backfill half is a complete sweep. -/
theorem backfill_sweep (cursor : Option BundleCursor) :
    ∃ pages last, Sweeps.Sweep (tables.backfillStep start finish) cursor pages last ∧
      pages.flatMap Prod.fst =
        Sweeps.rest SortOrder.heightDesc.Passes PendingRoot.cursor cursor
          (tables.backfillRows start finish) ∧
      (∀ page ∈ pages, ∀ place ∈ cursor, SortOrder.heightDesc.Passes place page.2) ∧
      pages.Pairwise fun first second => SortOrder.heightDesc.Passes first.2 second.2 := by
  apply Sweeps.exists_sweep (pairwise_sortedRoots.filter _) backfillStep_step
  intro cursor root member
  obtain ⟨_, ahead⟩ := Sweeps.mem_rest.mp member
  exact Nat.sub_le_sub_right (le_backfillTop fun last known =>
    BundleCursor.height_le_of_lt (SortOrder.passes_heightDesc.mp (ahead last known))) start

/-- A backfill page of a scan is a step of the sweep. -/
theorem backfillPage_eq {scan : BundleScan} (valid : ∀ cursor ∈ scan.backfill, cursor.Valid)
    (order : start ≤ finish) (small : finish < 2 ^ 63) :
    let step := tables.backfillStep start finish scan.backfill
    tables.backfillPage scan start finish =
      .ok ⟨step.1.map PendingRoot.entry, step.2, none⟩ := by
  intro step
  have top : backfillTop finish scan.backfill ≤ finish := by
    cases scan.backfill with
    | none => exact le_rfl
    | some cursor => exact min_le_right _ _
  have most : backfillLow start finish scan.backfill ≤ finish := by
    rw [backfillLow]
    omega
  have narrow := @Sweeps.page_filter _ _ SortOrder.heightDesc.Passes _ PendingRoot.cursor
    (tables.sortedRoots .heightDesc) scan.backfill bundlePageLimit
    (fun root => backfillLow start finish scan.backfill ≤ root.height.val)
    (fun root => start ≤ root.height.val ∧ root.height.val ≤ finish)
    (fun root => backfillLow start finish scan.backfill ≤ root.height.val ∧
      root.height.val ≤ finish) (by
        intro root
        have least : start ≤ backfillLow start finish scan.backfill := le_max_left _ _
        rw [← Bool.decide_and, decide_eq_decide]
        omega)
  have found := @pendingBundlesAfter_eq tables _ _ _ true valid most small
  simp only [if_true, ← narrow] at found
  rw [backfillPage, found, Checked.ok_bind]
  exact passGap_eq (most.trans_lt small)

end Backfill

section Cycle

variable {metadataHeight : Option (Fin (2 ^ 63))} {start metadata : Nat} {scan : BundleScan}

theorem metadata_lt (known : (metadataHeight.map Fin.val).getD 0 = metadata) :
    metadata < 2 ^ 63 := by
  cases metadataHeight with
  | none => exact known ▸ Nat.two_pow_pos 63
  | some height => exact known ▸ height.isLt

theorem valid_next {rows : List PendingRoot} {goes : Prop} [Decidable goes]
    {edge behind : BundleCursor} (edgeValid : edge.Valid)
    (found : (rows.getLast?.map PendingRoot.cursor).or (if goes then some edge else none) =
      some behind) : behind.Valid := by
  cases last : rows.getLast? with
  | none =>
      rw [last] at found
      obtain ⟨_, same⟩ := Option.ite_none_right_eq_some.mp found
      exact Option.some.inj same ▸ edgeValid
  | some root =>
      rw [last] at found
      exact Option.some.inj found ▸ BundleCursor.valid_root root

/-- A live page that moves the live cursor is the result of the scan. -/
theorem pendingBundleScan_live (known : (metadataHeight.map Fin.val).getD 0 = metadata)
    (above : scan.boundary < metadata) (started : start ≤ metadata)
    (valid : ∀ cursor ∈ scan.live, cursor.Valid) {rows : List PendingRoot} {behind : BundleCursor}
    (go : tables.liveStep (max start (scan.boundary + 1)) metadata scan.live =
      (rows, some behind)) :
    tables.pendingBundleScan metadataHeight scan start =
      .ok (⟨rows.map PendingRoot.entry, some behind, some behind.height⟩, false) := by
  have page := @livePage_eq tables _ scan start valid above started (metadata_lt known)
  rw [go] at page
  rw [pendingBundleScan, known]
  simp only [above, started, and_self, if_true, page]
  rfl

/-- When the live half is over, the scan goes on with the other half. -/
theorem pendingBundleScan_over (known : (metadataHeight.map Fin.val).getD 0 = metadata)
    (valid : ∀ cursor ∈ scan.live, cursor.Valid)
    (ended : scan.boundary < metadata → start ≤ metadata →
      (tables.liveStep (max start (scan.boundary + 1)) metadata scan.live).2 = none) :
    ∃ scanned, tables.pendingBundleScan metadataHeight scan start =
      if min scan.boundary metadata < start then .ok (⟨[], none, scanned⟩, true)
      else do
        let page ← tables.backfillPage scan start (min scan.boundary metadata)
        return ({ page with liveScannedHeight := scanned }, true) := by
  by_cases active : scan.boundary < metadata ∧ start ≤ metadata
  · have page := @livePage_eq tables _ scan start valid active.1 active.2 (metadata_lt known)
    simp only [ended active.1 active.2] at page
    refine ⟨some metadata, ?_⟩
    rw [pendingBundleScan, known]
    simp only [active, and_self, if_true, page]
    rfl
  · refine ⟨none, ?_⟩
    rw [pendingBundleScan, known]
    simp only [active, if_false]
    rfl

/-- The live pages of a cycle are those of the sweep. -/
theorem scanCycle_live (known : (metadataHeight.map Fin.val).getD 0 = metadata)
    {boundary : Nat} {cursor last backfill : Option BundleCursor}
    {pages : List (List PendingRoot × BundleCursor)}
    (above : boundary < metadata) (started : start ≤ metadata)
    (valid : ∀ place ∈ cursor, place.Valid)
    (sweep : Sweeps.Sweep (tables.liveStep (max start (boundary + 1)) metadata) cursor pages last)
    (fuel : Nat) :
    (∀ place ∈ last, place.Valid) ∧
      tables.scanCycle metadataHeight start (pages.length + fuel) ⟨boundary, cursor, backfill⟩ =
        (Option.map fun rest => (pages.map (fun page =>
          (⟨page.1.map PendingRoot.entry, some page.2, some page.2.height⟩, false)) ++ rest.1,
            rest.2)) <$> tables.scanCycle metadataHeight start fuel ⟨boundary, last, backfill⟩ := by
  induction sweep with
  | wrap stop => exact ⟨valid, by simp⟩
  | @next cursor last rows behind pages go others induction =>
      have next : behind.Valid := by
        have found := congrArg Prod.snd go
        rw [liveStep] at found
        exact valid_next (BundleCursor.valid_lastAt _) found
      obtain ⟨lastValid, rest⟩ := induction (by simpa using next)
      refine ⟨lastValid, ?_⟩
      have page := @pendingBundleScan_live tables metadataHeight start metadata
        ⟨boundary, cursor, backfill⟩ known above started valid _ _ go
      rw [List.length_cons, Nat.add_right_comm, scanCycle, page, Checked.ok_bind]
      simp only [BundleScan.arrive, Option.isSome_some, if_true, Bool.false_eq_true, if_false,
        Option.isNone_some, rest]
      cases tables.scanCycle metadataHeight start fuel ⟨boundary, last, backfill⟩ with
      | error message => rfl
      | ok result => cases result <;> rfl

/-- The backfill pages of a cycle are those of the sweep, and the scan wraps behind them. -/
theorem scanCycle_backfill (known : (metadataHeight.map Fin.val).getD 0 = metadata)
    {boundary : Nat} {cursor last live : Option BundleCursor}
    {pages : List (List PendingRoot × BundleCursor)}
    (order : start ≤ min boundary metadata) (liveValid : ∀ place ∈ live, place.Valid)
    (ended : boundary < metadata → start ≤ metadata →
      (tables.liveStep (max start (boundary + 1)) metadata live).2 = none)
    (valid : ∀ place ∈ cursor, place.Valid)
    (sweep : Sweeps.Sweep (tables.backfillStep start (min boundary metadata)) cursor pages last) :
    ∃ arrived : List BundlePage, arrived.map BundlePage.after = pages.map (fun page => some page.2) ∧
      arrived.map BundlePage.roots = pages.map (fun page => page.1.map PendingRoot.entry) ∧
      ∀ fuel, tables.scanCycle metadataHeight start (pages.length + 1 + fuel)
          ⟨boundary, live, cursor⟩ =
        .ok (some (arrived.map (fun page => (page, true)), ⟨boundary, none, none⟩)) := by
  have step : ∀ cursor : Option BundleCursor, (∀ place ∈ cursor, place.Valid) → ∃ scanned,
      tables.pendingBundleScan metadataHeight ⟨boundary, live, cursor⟩ start =
        .ok (⟨(tables.backfillStep start (min boundary metadata) cursor).1.map PendingRoot.entry,
          (tables.backfillStep start (min boundary metadata) cursor).2, scanned⟩, true) := by
    intro cursor valid
    obtain ⟨scanned, result⟩ := @pendingBundleScan_over tables metadataHeight start metadata
      ⟨boundary, live, cursor⟩ known liveValid ended
    have page := @backfillPage_eq tables start (min boundary metadata) ⟨boundary, live, cursor⟩
      valid order ((min_le_right _ _).trans_lt (metadata_lt known))
    rw [if_neg (Nat.not_lt.mpr order)] at result
    exact ⟨scanned, result.trans (by rw [page]; rfl)⟩
  induction sweep with
  | @wrap cursor found stop =>
      obtain ⟨scanned, page⟩ := step cursor valid
      refine ⟨[], rfl, rfl, fun fuel => ?_⟩
      rw [stop] at page
      rw [List.length_nil, Nat.zero_add, Nat.add_comm, scanCycle, page, Checked.ok_bind]
      rfl
  | @next cursor last rows behind pages go others induction =>
      obtain ⟨scanned, page⟩ := step cursor valid
      rw [go] at page
      have next : behind.Valid := by
        have found := congrArg Prod.snd go
        rw [backfillStep] at found
        exact valid_next (BundleCursor.valid_firstAt _) found
      obtain ⟨arrived, after, roots, rest⟩ := induction (by simpa using next)
      refine ⟨⟨rows.map PendingRoot.entry, some behind, scanned⟩ :: arrived,
        by rw [List.map_cons, after, List.map_cons], by rw [List.map_cons, roots, List.map_cons],
        fun fuel => ?_⟩
      have length : (((rows, behind) :: pages).length + 1 + fuel) =
          (pages.length + 1 + fuel) + 1 := by
        rw [List.length_cons]
        omega
      rw [length, scanCycle, page, Checked.ok_bind]
      simp only [BundleScan.arrive, Option.isSome_some, if_true, Option.isNone_some,
        Bool.false_eq_true, if_false, rest fuel]
      rfl

end Cycle

section Totals

variable (tables : BundleTables)

/-- The canonical roots at imported heights that are not indexed completely. -/
def unfinishedRoots : List PendingRoot :=
  (tables.canonicalBlocks.filter tables.imported).flatMap tables.blockRoots

/-- The placements of roots at a height, as the totals count them. -/
def placedRoots (height : Fin (2 ^ 63)) : List GraphqlPlacement :=
  tables.placements.filter fun placement =>
    placement.blockHeight = height ∧ placement.kind = 0 ∧ tables.objects.any fun object =>
      object.key = placement.objectKey ∧ object.metadataComplete ∧ object.isBundle

/-- The totals of each canonical height are those of a recount. -/
def Recounted : Prop :=
  ∀ block ∈ tables.canonicalBlocks,
    let rows := tables.totals.filter fun row => row.height = block.height
    (rows.map BundleTotals.roots).sum = (tables.placedRoots block.height).length ∧
      (rows.map BundleTotals.completed).sum =
        ((tables.placedRoots block.height).filter fun placement =>
          tables.progress.any fun row => row.1 = placement.objectKey ∧ row.2).length

variable {tables}

/-- A pending root is counted, but not as complete. -/
theorem exists_placed {block : CanonicalBlock} {root : PendingRoot}
    (member : root ∈ tables.blockRoots block) :
    ∃ placement ∈ tables.placedRoots block.height,
      (tables.progress.any fun row => row.1 = placement.objectKey ∧ row.2) = false := by
  obtain ⟨_, row, _, _, found⟩ := mem_blockRoots member
  obtain ⟨object, known, rest⟩ := Option.bind_eq_some_iff.mp found
  obtain ⟨placement, placed, rest⟩ := Option.bind_eq_some_iff.mp rest
  split at rest
  · cases rest
  · next open' =>
      have right := List.find?_some known
      have here := List.find?_some placed
      simp only [decide_eq_true_eq] at right here
      refine ⟨placement, List.mem_filter.mpr ⟨List.mem_of_find?_eq_some placed, ?_⟩, ?_⟩
      · refine decide_eq_true ⟨here.2.1, here.2.2.2, List.any_eq_true.mpr
          ⟨object, List.mem_of_find?_eq_some known, ?_⟩⟩
        exact decide_eq_true ⟨right.1.trans here.1.symm, right.2.2⟩
      · rw [here.1]
        exact Bool.eq_false_iff.mpr open'

/-- The totals of a recount keep no height with a pending root from the scan. -/
theorem pendingRoots_eq (recounted : tables.Recounted) :
    tables.pendingRoots = tables.unfinishedRoots := by
  have closed : ∀ block ∈ tables.canonicalBlocks, tables.unfinished block = false →
      tables.blockRoots block = [] := by
    intro block canonical finished
    by_contra some
    obtain ⟨root, member⟩ := List.exists_mem_of_ne_nil _ some
    obtain ⟨placement, placed, left⟩ := exists_placed member
    obtain ⟨roots, completed⟩ := recounted block canonical
    have fewer : ((tables.placedRoots block.height).filter fun placement =>
        tables.progress.any fun row => row.1 = placement.objectKey ∧ row.2).length <
          (tables.placedRoots block.height).length :=
      List.length_filter_lt_length_iff_exists.mpr ⟨placement, placed, by rw [left]; simp⟩
    simp only [unfinished, decide_eq_false_iff_not, roots, completed, Nat.cast_lt] at finished
    exact finished fewer
  rw [pendingRoots, unfinishedRoots]
  have split : (tables.canonicalBlocks.filter fun block =>
      tables.imported block && tables.unfinished block) =
        (tables.canonicalBlocks.filter tables.imported).filter tables.unfinished := by
    rw [List.filter_filter]
    exact List.filter_congr fun block _ => Bool.and_comm _ _
  rw [split, flatMap_filter fun block member => closed block (List.mem_filter.mp member).1]

end Totals

/-- The live pages of a cycle. -/
theorem live_cycle (tables : BundleTables) {metadataHeight : Option (Fin (2 ^ 63))}
    {metadata : Nat} (known : (metadataHeight.map Fin.val).getD 0 = metadata)
    (boundary start : Nat) :
    ∃ (live : List BundlePage) (last : Option BundleCursor),
      (∀ fuel, tables.scanCycle metadataHeight start (live.length + fuel) ⟨boundary, none, none⟩ =
        (Option.map fun rest => (live.map (fun page => (page, false)) ++ rest.1, rest.2)) <$>
          tables.scanCycle metadataHeight start fuel ⟨boundary, last, none⟩) ∧
      (∀ place ∈ last, place.Valid) ∧
      (boundary < metadata → start ≤ metadata →
        (tables.liveStep (max start (boundary + 1)) metadata last).2 = none) ∧
      live.flatMap BundlePage.roots = ((tables.sortedRoots .heightAsc).filter fun root =>
        start ≤ root.height.val ∧ boundary < root.height.val ∧ root.height.val ≤ metadata).map
          PendingRoot.entry ∧
      ∃ cursors : List BundleCursor, live.map BundlePage.after = cursors.map some ∧
        cursors.Pairwise (· < ·) := by
  by_cases active : boundary < metadata ∧ start ≤ metadata
  · obtain ⟨pages, last, sweep, all, _, order⟩ := @live_sweep tables
      (max start (boundary + 1)) metadata (metadata_lt known) none
    refine ⟨pages.map fun page => ⟨page.1.map PendingRoot.entry, some page.2, some page.2.height⟩,
      last, fun fuel => ?_, ?_, fun _ _ => sweep.stops, ?_, pages.map Prod.snd, ?_, ?_⟩
    · rw [List.length_map, (scanCycle_live known active.1 active.2 (by simp) sweep fuel).2,
        List.map_map]
      rfl
    · exact (@scanCycle_live tables _ _ _ known _ _ _ none _ active.1 active.2 (by simp) sweep 0).1
    · rw [List.flatMap_map, ← List.map_flatMap, all, Sweeps.rest_none, liveRows]
      congr 1
      refine List.filter_congr fun root _ => ?_
      rw [decide_eq_decide]
      omega
    · rw [List.map_map, List.map_map]
      rfl
    · rw [List.pairwise_map]
      exact order.imp SortOrder.passes_heightAsc.mp
  · refine ⟨[], none, fun fuel => by simp, by simp, fun above started =>
      absurd ⟨above, started⟩ active, ?_, [], rfl, .nil⟩
    have none : ((tables.sortedRoots .heightAsc).filter fun root =>
        start ≤ root.height.val ∧ boundary < root.height.val ∧ root.height.val ≤ metadata) = [] := by
      rw [List.filter_eq_nil_iff]
      intro root _
      rw [decide_eq_true_eq]
      omega
    rw [none]
    rfl

/-- The backfill pages of a cycle. -/
theorem backfill_cycle (tables : BundleTables) {metadataHeight : Option (Fin (2 ^ 63))}
    {metadata : Nat} (known : (metadataHeight.map Fin.val).getD 0 = metadata)
    (boundary start : Nat) {live : Option BundleCursor} (valid : ∀ place ∈ live, place.Valid)
    (ended : boundary < metadata → start ≤ metadata →
      (tables.liveStep (max start (boundary + 1)) metadata live).2 = none) :
    ∃ backfill : List BundlePage,
      (∀ fuel, tables.scanCycle metadataHeight start (backfill.length + 1 + fuel)
          ⟨boundary, live, none⟩ =
        .ok (some (backfill.map (fun page => (page, true)), ⟨boundary, none, none⟩))) ∧
      backfill.flatMap BundlePage.roots = ((tables.sortedRoots .heightDesc).filter fun root =>
        start ≤ root.height.val ∧ root.height.val ≤ boundary ∧ root.height.val ≤ metadata).map
          PendingRoot.entry ∧
      ∃ cursors : List BundleCursor, backfill.map BundlePage.after = cursors.map some ∧
        cursors.Pairwise (· > ·) := by
  by_cases order : start ≤ min boundary metadata
  · obtain ⟨pages, last, sweep, all, _, sorted⟩ := @backfill_sweep tables start
      (min boundary metadata) none
    obtain ⟨arrived, after, roots, cycle⟩ := scanCycle_backfill known order valid ended (by simp)
      sweep
    have length : arrived.length = pages.length := by
      simpa using congrArg List.length roots
    refine ⟨arrived, fun fuel => by rw [length, cycle], ?_, pages.map Prod.snd, ?_, ?_⟩
    · rw [List.flatMap_def, roots, ← List.flatMap_def, ← List.map_flatMap, all, Sweeps.rest_none,
        backfillRows]
      congr 1
      refine List.filter_congr fun root _ => ?_
      rw [decide_eq_decide]
      omega
    · rw [after, List.map_map]
      rfl
    · rw [List.pairwise_map]
      exact sorted.imp SortOrder.passes_heightDesc.mp
  · refine ⟨[], fun fuel => ?_, ?_, [], rfl, .nil⟩
    · obtain ⟨scanned, result⟩ := @pendingBundleScan_over tables metadataHeight start metadata
        ⟨boundary, live, none⟩ known valid ended
      rw [if_pos (Nat.not_le.mp order)] at result
      rw [List.length_nil, Nat.zero_add, Nat.add_comm, scanCycle, result, Checked.ok_bind]
      rfl
    · have none : ((tables.sortedRoots .heightDesc).filter fun root =>
          start ≤ root.height.val ∧ root.height.val ≤ boundary ∧
            root.height.val ≤ metadata) = [] := by
        rw [List.filter_eq_nil_iff]
        intro root _
        rw [decide_eq_true_eq]
        omega
      rw [none]
      rfl

/-- **Complete scans.**  A cycle from wrap to wrap returns each pending root between the start and
the height with metadata once: first those above the boundary, going up, then the others, going
down.  Every page moves its cursor on. -/
theorem pending_scan_complete (tables : BundleTables) (metadataHeight : Option (Fin (2 ^ 63)))
    (boundary start : Nat) :
    let metadata := (metadataHeight.map Fin.val).getD 0
    ∃ live backfill : List BundlePage,
      (∀ fuel, live.length + backfill.length + 1 ≤ fuel →
        tables.scanCycle metadataHeight start fuel ⟨boundary, none, none⟩ =
          .ok (some (live.map (fun page => (page, false)) ++
            backfill.map (fun page => (page, true)), ⟨boundary, none, none⟩))) ∧
      live.flatMap BundlePage.roots = ((tables.sortedRoots .heightAsc).filter fun root =>
        start ≤ root.height.val ∧ boundary < root.height.val ∧ root.height.val ≤ metadata).map
          PendingRoot.entry ∧
      backfill.flatMap BundlePage.roots = ((tables.sortedRoots .heightDesc).filter fun root =>
        start ≤ root.height.val ∧ root.height.val ≤ boundary ∧ root.height.val ≤ metadata).map
          PendingRoot.entry ∧
      (∃ cursors : List BundleCursor, live.map BundlePage.after = cursors.map some ∧
        cursors.Pairwise (· < ·)) ∧
      (∃ cursors : List BundleCursor, backfill.map BundlePage.after = cursors.map some ∧
        cursors.Pairwise (· > ·)) ∧
      (tables.pendingRoots.map PendingRoot.place).Nodup ∧
      (tables.Recounted → tables.pendingRoots = tables.unfinishedRoots) := by
  intro metadata
  obtain ⟨live, last, up, valid, ended, above, ascending⟩ :=
    live_cycle tables (rfl : _ = metadata) boundary start
  obtain ⟨backfill, down, below, descending⟩ :=
    backfill_cycle tables (rfl : _ = metadata) boundary start valid ended
  refine ⟨live, backfill, fun fuel enough => ?_, above, below, ascending, descending,
    nodup_places, pendingRoots_eq⟩
  obtain ⟨extra, rfl⟩ := Nat.exists_eq_add_of_le enough
  rw [Nat.add_assoc, Nat.add_assoc, up, ← Nat.add_assoc, down]
  rfl

def gapHash (name : UInt8) : FixedBytes 48 := ⟨List.replicate 48 name, List.length_replicate⟩

theorem length_gapId (name : UInt8) : (List.replicate 32 name).length = 32 := List.length_replicate

def gapId (name : UInt8) : FixedBytes 32 := ⟨List.replicate 32 name, length_gapId name⟩

/-- A root in each of three blocks, the last one far behind the second. -/
def gapTables : BundleTables where
  state := some ⟨⟨0, by decide⟩, some ⟨2000, by decide⟩⟩
  canonicalBlocks :=
    [⟨⟨2, by decide⟩, gapHash 2⟩, ⟨⟨5, by decide⟩, gapHash 5⟩, ⟨⟨1500, by decide⟩, gapHash 15⟩]
  blocks :=
    [⟨⟨2, by decide⟩, gapHash 2, none, some ⟨1, by decide⟩⟩,
      ⟨⟨5, by decide⟩, gapHash 5, none, some ⟨2, by decide⟩⟩,
      ⟨⟨1500, by decide⟩, gapHash 15, none, some ⟨3, by decide⟩⟩]
  transactions :=
    [⟨gapHash 2, ⟨0, by decide⟩, 1⟩, ⟨gapHash 5, ⟨0, by decide⟩, 2⟩,
      ⟨gapHash 15, ⟨0, by decide⟩, 3⟩]
  objects := [⟨1, 0, true, true, 10⟩, ⟨2, 0, true, true, 20⟩, ⟨3, 0, true, true, 30⟩]
  placements :=
    [⟨1, ⟨2, by decide⟩, ⟨0, by decide⟩, 0, gapId 1, none, none, none⟩,
      ⟨2, ⟨5, by decide⟩, ⟨0, by decide⟩, 0, gapId 2, none, none, none⟩,
      ⟨3, ⟨1500, by decide⟩, ⟨0, by decide⟩, 0, gapId 3, none, none, none⟩]
  progress := []
  totals := [⟨⟨2, by decide⟩, 1, 0⟩, ⟨⟨5, by decide⟩, 1, 0⟩, ⟨⟨1500, by decide⟩, 1, 0⟩]
  heightsOnce := by decide
  positionsOnce := by decide +kernel

theorem pending_scan_complete_gap : ∃ live backfill : List BundlePage,
    (∀ fuel, live.length + backfill.length + 1 ≤ fuel →
      gapTables.scanCycle (some ⟨2000, by decide⟩) 0 fuel ⟨3, none, none⟩ =
        .ok (some (live.map (fun page => (page, false)) ++
          backfill.map (fun page => (page, true)), ⟨3, none, none⟩))) ∧
    live.flatMap BundlePage.roots = [(gapId 2, 5, 20), (gapId 3, 1500, 30)] ∧
    backfill.flatMap BundlePage.roots = [(gapId 1, 2, 10)] := by
  obtain ⟨live, backfill, pages, above, below, -⟩ :=
    gapTables.pending_scan_complete (some ⟨2000, by decide⟩) 3 0
  refine ⟨live, backfill, pages, above.trans ?_, below.trans ?_⟩ <;> decide

end BundleTables

end ArIoGateway
