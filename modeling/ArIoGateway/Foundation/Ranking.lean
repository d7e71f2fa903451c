import ArIoGateway.Foundation.Checked
import Mathlib.Data.List.Induction
import Mathlib.Data.List.Sort

/-!
# Ranked rows and their pages

Rows come in an order that tells any two of them apart.  The first rows of a union are found among
the first rows of its parts, and the pages that a reader gets by asking for what comes behind the
last row of the page before are the whole list in pieces.
-/

namespace Ranking

variable {α β : Type} {before : α → α → Prop}

/-- Rows that come before each other are the same. -/
def Separates (before : α → α → Prop) (rows : List α) : Prop :=
  ∀ first ∈ rows, ∀ second ∈ rows, before first second → before second first → first = second

theorem Separates.mono {rows others : List α} (separates : Separates before rows)
    (subset : others ⊆ rows) : Separates before others :=
  fun first firstMember second secondMember =>
    separates first (subset firstMember) second (subset secondMember)

variable [DecidableRel before]

/-- The first rows in the order, up to a number. -/
def top (before : α → α → Prop) [DecidableRel before] (count : Nat) (rows : List α) : List α :=
  (rows.insertionSort before).take count

variable [Std.Total before] [IsTrans α before]

/-- Rows that the order tells apart are sorted in one way. -/
theorem insertionSort_eq {rows sorted : List α} (separates : Separates before rows)
    (order : sorted.Pairwise before) (same : sorted.Perm rows) :
    rows.insertionSort before = sorted := by
  refine List.Perm.eq_of_pairwise ?_ (List.pairwise_insertionSort before rows) order
    ((List.perm_insertionSort before rows).trans same.symm)
  intro first second firstMember secondMember
  exact separates first ((List.mem_insertionSort before).mp firstMember) second
    (same.subset secondMember)

theorem insertionSort_perm {rows others : List α} (separates : Separates before rows)
    (same : others.Perm rows) : others.insertionSort before = rows.insertionSort before :=
  (insertionSort_eq separates (List.pairwise_insertionSort before others)
    ((List.perm_insertionSort before others).trans same)).symm

/-- Picking rows and sorting them can be done in either order. -/
theorem insertionSort_filter {rows : List α} (separates : Separates before rows)
    (keep : α → Bool) :
    (rows.filter keep).insertionSort before = (rows.insertionSort before).filter keep :=
  insertionSort_eq (separates.mono fun _ member => (List.mem_filter.mp member).1)
    ((List.pairwise_insertionSort before rows).filter keep)
    ((List.perm_insertionSort before rows).filter keep)

omit [DecidableRel before] [Std.Total before] [IsTrans α before] in
/-- The first rows of a merge come from the first rows of its left part. -/
theorem take_merge (le : α → α → Bool) (count : Nat) (left right : List α) :
    (List.merge (left.take count) right le).take count =
      (List.merge left right le).take count := by
  induction count generalizing left right with
  | zero => rfl
  | succ count induction =>
      induction right generalizing left with
      | nil => rw [List.merge_right, List.merge_right, List.take_take, Nat.min_self]
      | cons second right further =>
          cases left with
          | nil => rfl
          | cons first left =>
              rw [List.take_succ_cons, List.cons_merge_cons, List.cons_merge_cons]
              split
              · rw [List.take_succ_cons, List.take_succ_cons, induction]
              · have shorter := induction (first :: left.take count) right
                have longer := induction (first :: left) right
                have same : (first :: left.take count).take count =
                    (first :: left).take count := by
                  cases count with
                  | zero => rfl
                  | succ count =>
                      rw [List.take_succ_cons, List.take_succ_cons, List.take_take,
                        Nat.min_eq_left (by omega)]
                rw [List.take_succ_cons, List.take_succ_cons, ← shorter, ← longer, same]

theorem insertionSort_append {left right : List α} (separates : Separates before (left ++ right)) :
    (left ++ right).insertionSort before =
      List.merge (left.insertionSort before) (right.insertionSort before) (before · ·) := by
  refine insertionSort_eq separates
    ((List.pairwise_insertionSort before left).merge (List.pairwise_insertionSort before right)) ?_
  exact (List.merge_perm_append (before · ·)).trans
    ((List.perm_insertionSort before left).append (List.perm_insertionSort before right))

omit [Std.Total before] [IsTrans α before] in
theorem top_subset (count : Nat) (rows : List α) : top before count rows ⊆ rows :=
  fun _ member => (List.mem_insertionSort before).mp (List.mem_of_mem_take member)

theorem top_perm {rows others : List α} (count : Nat) (separates : Separates before rows)
    (same : others.Perm rows) : top before count others = top before count rows := by
  rw [top, top, insertionSort_perm separates same]

/-- Of the left part of a union, only the first rows matter. -/
theorem top_append_left {left right : List α} (count : Nat)
    (separates : Separates before (left ++ right)) :
    top before count (top before count left ++ right) = top before count (left ++ right) := by
  have fewer : Separates before (top before count left ++ right) := by
    refine separates.mono ?_
    exact List.append_subset.mpr ⟨fun _ member =>
      List.mem_append_left _ (top_subset count left member), List.subset_append_right _ _⟩
  have sorted : (top before count left).insertionSort before =
      (left.insertionSort before).take count :=
    (List.pairwise_insertionSort before left).take.insertionSort_eq
  unfold top at fewer sorted ⊢
  rw [insertionSort_append fewer, insertionSort_append separates, sorted, take_merge]

/-- Of the right part of a union, only the first rows matter. -/
theorem top_append_right {left right : List α} (count : Nat)
    (separates : Separates before (left ++ right)) :
    top before count (left ++ top before count right) = top before count (left ++ right) := by
  have turned : Separates before (right ++ left) :=
    separates.mono List.perm_append_comm.subset
  have fewer : Separates before (top before count right ++ left) := by
    refine turned.mono ?_
    exact List.append_subset.mpr ⟨fun _ member =>
      List.mem_append_left _ (top_subset count right member), List.subset_append_right _ _⟩
  calc
    top before count (left ++ top before count right)
        = top before count (top before count right ++ left) :=
          top_perm count fewer List.perm_append_comm
    _ = top before count (right ++ left) := top_append_left count turned
    _ = top before count (left ++ right) := top_perm count separates List.perm_append_comm

/-- Of every part of a union, only the first rows matter. -/
theorem top_flatMap {parts : List β} {rows : β → List α} (count : Nat)
    (separates : Separates before (parts.flatMap rows)) :
    top before count (parts.flatMap fun part => top before count (rows part)) =
      top before count (parts.flatMap rows) := by
  induction parts with
  | nil => rfl
  | cons part parts induction =>
      rw [List.flatMap_cons] at separates
      have later := induction (separates.mono (List.subset_append_right _ _))
      have fewer : Separates before
          (rows part ++ parts.flatMap fun part => top before count (rows part)) := by
        refine separates.mono (List.append_subset.mpr ⟨List.subset_append_left _ _, ?_⟩)
        intro row member
        obtain ⟨other, inside, chosen⟩ := List.mem_flatMap.mp member
        exact List.mem_append_right _
          (List.mem_flatMap.mpr ⟨other, inside, top_subset count _ chosen⟩)
      rw [List.flatMap_cons, List.flatMap_cons, top_append_left count fewer,
        ← top_append_right count fewer, later, top_append_right count separates]

omit [IsTrans α before] in
/-- What is behind a row of a sorted list. -/
theorem filter_behind {front rest : List α} {last : α}
    (order : (front ++ last :: rest).Pairwise before)
    (separates : Separates before (front ++ last :: rest)) (once : (front ++ last :: rest).Nodup) :
    (front ++ last :: rest).filter (fun row => ¬ before row last) = rest := by
  have itself : before last last := (Std.Total.total last last).elim id id
  rw [List.pairwise_append, List.pairwise_cons] at order
  rw [List.nodup_append, List.nodup_cons] at once
  have earlier : front.filter (fun row => ¬ before row last) = [] := by
    rw [List.filter_eq_nil_iff]
    intro row member
    simpa using order.2.2 row member last List.mem_cons_self
  have later : rest.filter (fun row => ¬ before row last) = rest := by
    rw [List.filter_eq_self]
    intro row member
    rw [decide_eq_true_eq]
    intro back
    have same := separates last (by simp) row (by simp [member])
      (order.2.1.1 row member) back
    exact once.2.1.1 (same ▸ member)
  rw [List.filter_append, List.filter_cons_of_neg (by simpa using itself), earlier, later,
    List.nil_append]

/-- The first rows behind the last one of the front are the first of the rest. -/
theorem top_behind {rows front rest : List α} (separates : Separates before rows)
    (once : rows.Nodup) (split : front ++ rest = rows.insertionSort before) (count : Nat) :
    top before count (rows.filter fun row => front.getLast?.all fun last => ¬ before row last) =
      rest.take count := by
  have same := List.perm_insertionSort before rows
  rw [top, insertionSort_filter separates, ← split]
  cases front using List.reverseRecOn with
  | nil => simp
  | append_singleton front last =>
      rw [List.append_assoc, List.singleton_append] at split ⊢
      have order := List.pairwise_insertionSort before rows
      have behind := filter_behind (split ▸ order) (split ▸ separates.mono same.subset)
        (split ▸ same.nodup_iff.mpr once)
      simpa using congrArg (List.take count) behind

section Ranks

variable {κ : Type} [LinearOrder κ] {key : α → κ}

/-- The number of rows with a smaller key. -/
def rankIn (key : α → κ) (rows : List α) (row : α) : Nat :=
  rows.countP fun other => key other < key row

theorem rankIn_perm {rows others : List α} (same : others.Perm rows) (row : α) :
    rankIn key others row = rankIn key rows row :=
  same.countP_eq _

/-- In a strictly sorted list the rank of a row is its place. -/
theorem rankIn_of_getElem? {sorted : List α} {place : Nat} {row : α}
    (strict : sorted.Pairwise fun first second => key first < key second)
    (found : sorted[place]? = some row) : rankIn key sorted row = place := by
  induction sorted generalizing place with
  | nil => simp at found
  | cons head tail induction =>
      obtain ⟨least, strict⟩ := List.pairwise_cons.mp strict
      cases place with
      | zero =>
          obtain rfl : head = row := by simpa using found
          have others : tail.countP (fun other => key other < key head) = 0 := by
            apply List.countP_eq_zero.mpr
            intro other member
            simpa using (least other member).le
          rw [rankIn, List.countP_cons_of_neg (by simp), others]
      | succ place =>
          rw [List.getElem?_cons_succ] at found
          have less := least row (List.mem_of_getElem? found)
          rw [rankIn, List.countP_cons_of_pos (by simpa using less)]
          exact congrArg Nat.succ (induction strict found)

/-- Rows with different keys are sorted strictly. -/
theorem strict_of_nodup {sorted : List α} (distinct : (sorted.map key).Nodup)
    (ordered : sorted.Pairwise fun first second => key first ≤ key second) :
    sorted.Pairwise fun first second => key first < key second := by
  have apart : sorted.Pairwise fun first second => key first ≠ key second :=
    List.pairwise_map.mp distinct
  exact (ordered.and apart).imp fun both => lt_of_le_of_ne both.1 both.2

/-- The ranks of rows with different keys are the numbers below their number. -/
theorem perm_ranks {rows : List α} (distinct : (rows.map key).Nodup) :
    (rows.map (rankIn key rows)).Perm (List.range rows.length) := by
  obtain ⟨sorted, same, ordered⟩ : ∃ sorted : List α, sorted.Perm rows ∧
      sorted.Pairwise fun first second => key first ≤ key second := by
    have : Std.Total fun first second : α => key first ≤ key second := ⟨fun _ _ => le_total _ _⟩
    have : IsTrans α fun first second => key first ≤ key second := ⟨fun _ _ _ => le_trans⟩
    exact ⟨rows.insertionSort fun first second => key first ≤ key second,
      List.perm_insertionSort _ rows, List.pairwise_insertionSort _ rows⟩
  have strict := strict_of_nodup ((same.map key).nodup_iff.mpr distinct) ordered
  have places : sorted.map (rankIn key sorted) = List.range sorted.length := by
    apply List.ext_getElem?
    intro place
    rw [List.getElem?_map]
    cases found : sorted[place]? with
    | none =>
        have behind := List.getElem?_eq_none_iff.mp found
        rw [Option.map_none, List.getElem?_eq_none (by rwa [List.length_range])]
    | some row =>
        obtain ⟨inside, -⟩ := List.getElem?_eq_some_iff.mp found
        rw [Option.map_some, rankIn_of_getElem? strict found, List.getElem?_range inside]
  have ranks : sorted.map (rankIn key rows) = List.range rows.length := by
    rw [← same.length_eq, ← places]
    exact List.map_congr_left fun row _ => (rankIn_perm same row).symm
  exact ((same.map _).symm).trans (.of_eq ranks)

end Ranks

section Prefixes

variable {α : Type*} (weight : α → Nat)

/-- Rows with their places, counted from one, and the totals of their weights up to them. -/
def runningTotals : (place total : Nat) → List α → List (α × Nat × Nat)
  | _, _, [] => []
  | place, total, row :: rest =>
      (row, place + 1, total + weight row) :: runningTotals (place + 1) (total + weight row) rest

/-- Rows are no more than a number, and weigh no more than there is room for. -/
def Fits (count room : Nat) (rows : List α) : Prop :=
  rows.length ≤ count ∧ (rows.map weight).sum ≤ room

/-- The rows that lie behind a number or a weight. -/
def beyond (count room : Nat) (rows : List α) : List α :=
  ((runningTotals weight 0 0 rows).filter fun row => count < row.2.1 ∨ room < row.2.2).map Prod.fst

variable {weight}

theorem runningTotals_fst (place total : Nat) (rows : List α) :
    (runningTotals weight place total rows).map Prod.fst = rows := by
  induction rows generalizing place total with
  | nil => rfl
  | cons row rest induction => rw [runningTotals, List.map_cons, induction]

theorem le_of_mem_runningTotals {place total : Nat} {rows : List α} {row : α × Nat × Nat}
    (member : row ∈ runningTotals weight place total rows) : place < row.2.1 ∧ total ≤ row.2.2 := by
  induction rows generalizing place total with
  | nil => cases member
  | cons first rest induction =>
      rcases List.mem_cons.mp member with rfl | later
      · exact ⟨Nat.lt_succ_self _, Nat.le_add_right _ _⟩
      · obtain ⟨places, totals⟩ := induction later
        exact ⟨by omega, by omega⟩

theorem exists_longest {count room place total : Nat} (places : place ≤ count)
    (totals : total ≤ room) (rows : List α) :
    ∃ kept rest, rows = kept ++ rest ∧
      ((runningTotals weight place total rows).filter fun row =>
        count < row.2.1 ∨ room < row.2.2).map Prod.fst = rest ∧
      (place + kept.length ≤ count ∧ total + (kept.map weight).sum ≤ room) ∧
      ∀ front, front <+: rows → place + front.length ≤ count →
        total + (front.map weight).sum ≤ room → front.length ≤ kept.length := by
  induction rows generalizing place total with
  | nil =>
      refine ⟨[], [], rfl, rfl, ⟨places, totals⟩, fun front inside _ _ => ?_⟩
      rw [List.prefix_nil.mp inside]
  | cons row rest induction =>
      by_cases fits : place + 1 ≤ count ∧ total + weight row ≤ room
      · obtain ⟨kept, others, rfl, filtered, within, longest⟩ := induction fits.1 fits.2
        refine ⟨row :: kept, others, rfl, ?_, ?_, ?_⟩
        · rw [runningTotals, List.filter_cons_of_neg (by simp only [decide_eq_true_eq]; omega),
            filtered]
        · simp only [List.length_cons, List.map_cons, List.sum_cons]
          omega
        · intro front inside count room
          cases front with
          | nil => exact Nat.zero_le _
          | cons first front =>
              obtain ⟨rfl, behind⟩ := List.cons_prefix_cons.mp inside
              simp only [List.length_cons, List.map_cons, List.sum_cons] at count room ⊢
              have shorter := longest front behind (by omega) (by omega)
              omega
      · refine ⟨[], row :: rest, rfl, ?_, ⟨places, totals⟩, ?_⟩
        · rw [List.filter_eq_self.mpr, runningTotals_fst]
          intro other member
          rw [runningTotals] at member
          simp only [decide_eq_true_eq]
          rcases List.mem_cons.mp member with rfl | later
          · simp only
            omega
          · have bounds := le_of_mem_runningTotals later
            omega
        · intro front inside count room
          cases front with
          | nil => exact le_rfl
          | cons first front =>
              obtain ⟨rfl, -⟩ := List.cons_prefix_cons.mp inside
              simp only [List.length_cons, List.map_cons, List.sum_cons] at count room
              omega

/-- The rows that do not lie beyond are the longest prefix that fits. -/
theorem beyond_spec (count room : Nat) (rows : List α) :
    ∃ kept, rows = kept ++ beyond weight count room rows ∧ Fits weight count room kept ∧
      ∀ front, front <+: rows → Fits weight count room front → front.length ≤ kept.length := by
  obtain ⟨kept, rest, whole, filtered, within, longest⟩ :=
    @exists_longest α weight count room 0 0 (Nat.zero_le _) (Nat.zero_le _) rows
  simp only [Nat.zero_add] at within longest
  refine ⟨kept, ?_, within, fun front inside fits => longest front inside fits.1 fits.2⟩
  rw [beyond, filtered]
  exact whole

end Prefixes

end Ranking

namespace Pages

variable {ε κ : Type}

/-- A page of rows, and whether there is a row behind it. -/
def page (size : Nat) (rows : List ε) : List ε × Bool :=
  (rows.take size, decide (size < rows.length))

/-- Ask for one page behind the last row of the one before until no row is behind it. -/
def follow (request : Option κ → Checked (List ε × Bool)) (cursor : ε → κ) :
    (rounds : Nat) → Option κ → Checked (List (List ε))
  | 0, _ => .error "pages do not end"
  | rounds + 1, after => do
      let (rows, more) ← request after
      match more, rows.getLast? with
      | true, some last => return rows :: (← follow request cursor rounds (some (cursor last)))
      | _, _ => return [rows]

/-- When every request has the page behind its cursor, the pages are the whole list in pieces. -/
theorem follow_eq_ok {request : Option κ → Checked (List ε × Bool)} {cursor : ε → κ} {size : Nat}
    {rows : List ε} (positive : 0 < size)
    (answers : ∀ front rest, front ++ rest = rows →
      request (front.getLast?.map cursor) = .ok (page size rest))
    {rounds : Nat} {front rest : List ε} (split : front ++ rest = rows)
    (enough : rest.length < rounds) :
    ∃ pages, follow request cursor rounds (front.getLast?.map cursor) = .ok pages ∧
      pages.flatten = rest := by
  induction rounds generalizing front rest with
  | zero => omega
  | succ rounds induction =>
      rw [follow, answers front rest split, Checked.ok_bind]
      by_cases further : size < rest.length
      · have last : ∃ last, (rest.take size).getLast? = some last := by
          refine ⟨_, List.getLast?_eq_some_getLast (List.length_pos_iff.mp ?_)⟩
          rw [List.length_take]
          omega
        obtain ⟨last, found⟩ := last
        have behind : (front ++ rest.take size).getLast? = some last := by
          rw [List.getLast?_append, found, Option.some_or]
        obtain ⟨pages, followed, whole⟩ := @induction (front ++ rest.take size) (rest.drop size)
          (by rw [List.append_assoc, List.take_append_drop, split])
          (by rw [List.length_drop]; omega)
        rw [behind, Option.map_some] at followed
        refine ⟨rest.take size :: pages, ?_, ?_⟩
        · simp only [page, further, decide_true, found, followed, Checked.ok_bind]
          rfl
        · rw [List.flatten_cons, whole, List.take_append_drop]
      · refine ⟨[rest.take size], ?_, ?_⟩
        · simp only [page, further, decide_false]
          rfl
        · rw [List.flatten_singleton, List.take_of_length_le (by omega)]

end Pages
