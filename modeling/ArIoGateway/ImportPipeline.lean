import ArIoGateway.TransactionImport
import Mathlib.Data.Multiset.Bind
import Mathlib.Tactic.Abel

/-!
# The pipeline of an import

What every interleaving of the selection, the fetches, the queue, the writer and the blocks keeps:
a height is active while something that was selected for it is in hand, and nothing is recorded
twice or forgotten.
-/

namespace ArIoGateway

/-- The transactions of a job with its height. -/
def TransactionJob.rows (job : TransactionJob) : Multiset (TransactionId × Nat) :=
  (job.ids.map fun id => (id, job.height) : List (TransactionId × Nat))

/-- The results that the writer has not taken. -/
def WriterPhase.results : WriterPhase → List FetchResult
  | .taking results | .pushing results _ _ _ | .flushing results _ _ _ => results
  | _ => []

/-- What is left of the job that the writer pushes. -/
def WriterPhase.current : WriterPhase → Option TransactionJob
  | .pushing _ height ids _ | .flushing _ height ids _ => some ⟨height, ids⟩
  | _ => none

namespace ImportState

/-- The results on their way from the fetches to the writer. -/
def results (state : ImportState) : Multiset FetchResult :=
  (state.batch : Multiset _) + (state.sending.getD [] : Multiset _) +
    (state.channel.flatten : Multiset _) + (state.writer.results : Multiset _)

/-- Whether a fetch has failed whose result the writer has not taken. -/
def Fails (state : ImportState) : Prop :=
  ∃ result ∈ state.results, result.verified = none

/-- The jobs that have been selected and not pushed to the end. -/
def work (state : ImportState) : Multiset TransactionJob :=
  (state.fetching : Multiset _).filterMap id +
    state.results.filterMap FetchResult.job +
      (state.writer.current.toList : Multiset _)

end ImportState

/-- The transactions that have been selected and not recorded. -/
def outstanding (work : Multiset TransactionJob) (objects : List (TransactionId × Nat)) :
    Multiset (TransactionId × Nat) :=
  work.bind TransactionJob.rows + (objects : Multiset _)

/-- While no block moves a transaction, all that is selected is pending, once. -/
structure Exact (work : Multiset TransactionJob) (state : ImportState) : Prop where
  recorded : state.recorded.Nodup
  nodup : ((outstanding work state.objects).map Prod.fst).Nodup
  pending : ∀ entry ∈ outstanding work state.objects,
    ∃ row ∈ state.pending, row.id = entry.1 ∧ row.height = entry.2
  queued : ∀ job ∈ state.queued, job.ids.Nodup ∧
    ∀ id ∈ job.ids, ∃ row ∈ state.pending, row.id = id ∧ row.height = job.height
  answered : ∀ excluded rows, state.selection = .querying excluded (some rows) →
    (rows.map PendingRow.id).Nodup ∧ ∀ row ∈ rows, row ∈ state.pending

/-- What the steps keep of the database, the active heights and the selection, for the jobs in
hand. -/
structure Ledger (work : Multiset TransactionJob) (state : ImportState) : Prop where
  owned : ∀ height, height ∈ state.active ↔
    height ∈ work.map TransactionJob.height ∨ height ∈ state.completed
  distinct : (work.map TransactionJob.height + (state.completed : Multiset Nat)).Nodup
  few : state.active.card ≤ maxActiveHeights
  collected : ∀ entry ∈ state.objects, entry.2 ∈ state.active
  queued : (state.queued.map TransactionJob.height).Nodup ∧
    ∀ job ∈ state.queued, job.height ∉ state.active
  asked : ∀ excluded answer, state.selection = .querying excluded answer →
    state.queued = [] ∧ state.active ⊆ excluded ∧
      ∀ rows, answer = some rows → ∀ row ∈ rows, row.height ∉ excluded
  waits : state.selection = .waiting false → state.permit = false ∧ state.active.Nonempty
  idle : state.selection = .ended → state.active = ∅
  unique : (state.pending.map PendingRow.id).Nodup
  incomplete : ∀ row ∈ state.pending, row.id ∉ state.complete
  recorded : ∀ id ∈ state.recorded, id ∈ state.complete
  logged : ∀ job ∈ state.selected, ∀ id ∈ job.ids,
    id ∈ state.recorded ∨ (id, job.height) ∈ outstanding work state.objects
  caughtUp : state.selection = .ended ∨ state.selection = .querying ∅ (some []) →
    state.pending ≠ [] → state.announcing ∨ state.unseen
  exact : state.moved = false → Exact work state

section

variable {work : Multiset TransactionJob} {state : ImportState}

theorem PendingRow.eq_of_id_eq {rows : List PendingRow} (unique : (rows.map PendingRow.id).Nodup)
    {left right : PendingRow} (leftMember : left ∈ rows) (rightMember : right ∈ rows)
    (same : left.id = right.id) : left = right :=
  List.inj_on_of_nodup_map unique leftMember rightMember same

/-- A row that moves keeps its transaction. -/
theorem PendingRow.ids_replace (rows : List PendingRow) (id : TransactionId) (height position : Nat) :
    (rows.map fun other => if other.id = id then ⟨id, height, position⟩ else other).map
      PendingRow.id = rows.map PendingRow.id := by
  rw [List.map_map]
  refine List.map_congr_left fun other _ => ?_
  by_cases same : other.id = id <;> simp [same]

theorem outstanding_cons (job : TransactionJob) (objects : List (TransactionId × Nat)) :
    outstanding (job ::ₘ work) objects = job.rows + outstanding work objects := by
  simp [outstanding, add_assoc]

theorem TransactionJob.mem_rows {job : TransactionJob} {entry : TransactionId × Nat} :
    entry ∈ job.rows ↔ entry.1 ∈ job.ids ∧ entry.2 = job.height := by
  obtain ⟨id, height⟩ := entry
  simp [-Subtype.exists, rows, eq_comm]

namespace Ledger

/-- Every outstanding transaction was selected at an active height. -/
theorem active_of_outstanding (ledger : Ledger work state) {entry : TransactionId × Nat}
    (member : entry ∈ outstanding work state.objects) : entry.2 ∈ state.active := by
  rcases Multiset.mem_add.mp member with inWork | inObjects
  · obtain ⟨job, inWork, inJob⟩ := Multiset.mem_bind.mp inWork
    rw [(TransactionJob.mem_rows.mp inJob).2]
    exact (ledger.owned _).mpr (.inl (Multiset.mem_map_of_mem _ inWork))
  · exact ledger.collected entry (by simpa using inObjects)

/-- The row of a transaction tells the height that it was selected for. -/
theorem not_outstanding (ledger : Ledger work state) (exact : Exact work state) {row : PendingRow}
    (member : row ∈ state.pending) (inactive : row.height ∉ state.active) :
    row.id ∉ (outstanding work state.objects).map Prod.fst := by
  intro selected
  obtain ⟨entry, inHand, same⟩ := Multiset.mem_map.mp selected
  obtain ⟨other, otherMember, sameId, sameHeight⟩ := exact.pending entry inHand
  obtain rfl := PendingRow.eq_of_id_eq ledger.unique otherMember member (sameId.trans same)
  exact inactive (sameHeight ▸ ledger.active_of_outstanding inHand)

/-- A job that leaves the queue takes its height. -/
theorem start (ledger : Ledger work state) {job : TransactionJob} {rest : List TransactionJob}
    (queued : state.queued = job :: rest) (ready : state.selection = .ready)
    (room : state.active.card ≠ maxActiveHeights) (fetching : List (Option TransactionJob)) :
    Ledger (job ::ₘ work)
      { state with
        active := insert job.height state.active
        queued := rest
        selected := state.selected ++ [job]
        fetching } := by
  obtain ⟨heights, apart⟩ := ledger.queued
  rw [queued, List.map_cons, List.nodup_cons] at heights
  rw [queued] at apart
  obtain ⟨inactive, restApart⟩ := List.forall_mem_cons.mp apart
  have unowned := mt (ledger.owned job.height).mpr inactive
  exact
    { ledger with
      owned := by
        intro height
        simp [ledger.owned height, or_assoc]
      distinct := by
        rw [Multiset.map_cons, Multiset.cons_add, Multiset.nodup_cons]
        exact ⟨by simpa using unowned, ledger.distinct⟩
      few := by
        have before := ledger.few
        have grown := Finset.card_insert_le job.height state.active
        dsimp only
        omega
      collected := fun entry member => Finset.mem_insert_of_mem (ledger.collected entry member)
      queued := by
        refine ⟨heights.2, fun other member => ?_⟩
        have differ : other.height ≠ job.height := fun same =>
          heights.1 (same ▸ List.mem_map_of_mem member)
        simp [differ, restApart other member]
      asked := by simp [ready]
      waits := by simp [ready]
      idle := by simp [ready]
      logged := by
        intro other member id inOther
        rw [outstanding_cons, Multiset.mem_add]
        rcases List.mem_append.mp member with old | new
        · exact (ledger.logged other old id inOther).imp_right .inr
        · obtain rfl := List.mem_singleton.mp new
          exact .inr (.inl (TransactionJob.mem_rows.mpr ⟨inOther, rfl⟩))
      exact := by
        intro still
        have exact := ledger.exact still
        have known := exact.queued
        rw [queued] at known
        obtain ⟨⟨idsNodup, idsPending⟩, restKnown⟩ := List.forall_mem_cons.mp known
        have fresh : ∀ id ∈ job.ids, id ∉ (outstanding work state.objects).map Prod.fst := by
          intro id member
          obtain ⟨row, inPending, rfl, atHeight⟩ := idsPending id member
          exact ledger.not_outstanding exact inPending (atHeight ▸ inactive)
        exact
          { recorded := exact.recorded
            nodup := by
              have ids : job.rows.map Prod.fst = (job.ids : Multiset TransactionId) := by
                simp [TransactionJob.rows, Function.comp_def]
              rw [outstanding_cons, Multiset.map_add, ids, Multiset.nodup_add]
              exact ⟨idsNodup, exact.nodup, Multiset.disjoint_left.mpr fun member =>
                fresh _ (by simpa using member)⟩
            pending := by
              intro entry member
              rw [outstanding_cons, Multiset.mem_add] at member
              rcases member with new | old
              · obtain ⟨inIds, atHeight⟩ := TransactionJob.mem_rows.mp new
                rw [atHeight]
                exact idsPending entry.1 inIds
              · exact exact.pending entry old
            queued := restKnown
            answered := by simp [ready] } }

/-- The selection becomes ready for the next round, or breaks. -/
theorem reselect (ledger : Ledger work state) (permit : Bool) {selection : SelectionPhase}
    (calm : selection = .ready ∨ selection = .waiting true ∨ selection = .broken) :
    Ledger work { state with selection, permit } where
  owned := ledger.owned
  distinct := ledger.distinct
  few := ledger.few
  collected := ledger.collected
  queued := ledger.queued
  asked := by rcases calm with rfl | rfl | rfl <;> simp
  waits := by rcases calm with rfl | rfl | rfl <;> simp
  idle := by rcases calm with rfl | rfl | rfl <;> simp
  unique := ledger.unique
  incomplete := ledger.incomplete
  recorded := ledger.recorded
  logged := ledger.logged
  caughtUp := by rcases calm with rfl | rfl | rfl <;> simp
  exact := fun still =>
    { ledger.exact still with
      answered := by rcases calm with rfl | rfl | rfl <;> simp }

/-- The selection waits only while a height is active. -/
theorem await (ledger : Ledger work state) (busy : state.active.Nonempty) :
    Ledger work state.await := by
  rw [ImportState.await]
  split
  · exact ledger.reselect false (.inl rfl)
  · next none =>
    exact
      { ledger with
        asked := by simp
        waits := fun _ => ⟨by simpa using none, busy⟩
        idle := by simp
        caughtUp := by simp
        exact := fun still => { ledger.exact still with answered := by simp } }

/-- The selection asks for pending rows at heights that are not active. -/
theorem ask (ledger : Ledger work state) (queued : state.queued = []) :
    Ledger work { state with selection := .querying state.active none } :=
  { ledger with
    asked := by
      intro excluded answer same
      cases same
      exact ⟨queued, subset_rfl, by simp⟩
    waits := by simp
    idle := by simp
    caughtUp := by simp
    exact := fun still => { ledger.exact still with answered := by simp } }

theorem mem_pendingTransactions {limit : Nat} {excluded : Finset Nat} {row : PendingRow}
    (member : row ∈ state.pendingTransactions limit excluded) :
    row ∈ state.pending ∧ row.height ∉ excluded := by
  have sorted := List.mem_of_mem_take member
  rw [List.mem_insertionSort] at sorted
  simpa using sorted

theorem nodup_pendingTransactions (unique : (state.pending.map PendingRow.id).Nodup) (limit : Nat)
    (excluded : Finset Nat) :
    ((state.pendingTransactions limit excluded).map PendingRow.id).Nodup := by
  have kept : ((state.pending.filter fun row => row.height ∉ excluded).map PendingRow.id).Nodup :=
    unique.sublist (List.filter_sublist.map _)
  have sorted := ((List.perm_insertionSort PendingRow.before _).map PendingRow.id).nodup_iff.mpr kept
  exact sorted.sublist ((List.take_sublist _ _).map _)

/-- A query that finds nothing says that all pending rows are excluded. -/
theorem excluded_of_pendingTransactions {limit : Nat} {excluded : Finset Nat} (positive : 0 < limit)
    (empty : state.pendingTransactions limit excluded = []) :
    ∀ row ∈ state.pending, row.height ∈ excluded := by
  intro row member
  by_contra apart
  have kept : row ∈ (state.pending.filter fun row => row.height ∉ excluded).insertionSort
      PendingRow.before := by
    simp [member, apart]
  rcases List.take_eq_nil_iff.mp empty with none | none
  · omega
  · rw [none] at kept
    cases kept

theorem answer (ledger : Ledger work state) {excluded : Finset Nat} {limit : Nat}
    (positive : 0 < limit) (asked : state.selection = .querying excluded none) :
    Ledger work { state with
      selection := .querying excluded (some (state.pendingTransactions limit excluded)) } := by
  obtain ⟨queued, covered, _⟩ := ledger.asked _ _ asked
  exact
    { ledger with
      asked := by
        intro other answer same
        cases same
        refine ⟨queued, covered, ?_⟩
        rintro rows ⟨⟩ row member
        exact (mem_pendingTransactions member).2
      waits := by simp
      idle := by simp
      caughtUp := by
        intro reached pending
        obtain ⟨rfl, empty⟩ : excluded = ∅ ∧ state.pendingTransactions limit excluded = [] := by
          simpa using reached
        obtain ⟨row, member⟩ := List.exists_mem_of_ne_nil _ pending
        exact absurd (excluded_of_pendingTransactions positive empty row member) (by simp)
      exact := fun still =>
        { ledger.exact still with
          answered := by
            rintro other rows ⟨⟩
            exact ⟨nodup_pendingTransactions ledger.unique _ _, fun row member =>
              (mem_pendingTransactions member).1⟩ } }

theorem mem_groups {rows : List PendingRow} {job : TransactionJob}
    (member : job ∈ ImportState.groups rows) :
    (∃ row ∈ rows, row.height = job.height) ∧
      job.ids = (rows.filter fun row => row.height = job.height).map PendingRow.id := by
  obtain ⟨height, known, rfl⟩ := List.mem_map.mp member
  rw [List.mem_insertionSort, List.mem_dedup] at known
  exact ⟨by simpa using known, rfl⟩

theorem nodup_groups (rows : List PendingRow) :
    ((ImportState.groups rows).map TransactionJob.height).Nodup := by
  have heights : (ImportState.groups rows).map TransactionJob.height =
      (rows.map PendingRow.height).dedup.insertionSort (· ≤ ·) := by
    simp [ImportState.groups, Function.comp_def]
  rw [heights]
  exact (List.perm_insertionSort _ _).nodup_iff.mpr (List.nodup_dedup _)

/-- The rows of an answer become jobs. -/
theorem group (ledger : Ledger work state) {excluded : Finset Nat} {rows : List PendingRow}
    (answered : state.selection = .querying excluded (some rows)) :
    Ledger work { state with queued := ImportState.groups rows, selection := .ready } := by
  obtain ⟨_, covered, apart⟩ := ledger.asked _ _ answered
  exact
    { ledger with
      queued := by
        refine ⟨nodup_groups rows, fun job member active => ?_⟩
        obtain ⟨⟨row, inRows, same⟩, _⟩ := mem_groups member
        exact apart rows rfl row inRows (same ▸ covered active)
      asked := by simp
      waits := by simp
      idle := by simp
      caughtUp := by simp
      exact := by
        intro still
        have exact := ledger.exact still
        obtain ⟨nodup, pending⟩ := exact.answered _ _ answered
        exact
          { exact with
            queued := by
              intro job member
              obtain ⟨_, ids⟩ := mem_groups member
              rw [ids]
              refine ⟨nodup.sublist (List.filter_sublist.map _), fun id inJob => ?_⟩
              obtain ⟨row, inRows, rfl⟩ := List.mem_map.mp inJob
              obtain ⟨inRows, same⟩ := List.mem_filter.mp inRows
              exact ⟨row, pending row inRows, rfl, by simpa using same⟩
            answered := by simp } }

/-- A query that found nothing ends the selection, when no height is active. -/
theorem finish (ledger : Ledger work state) (answered : state.selection = .querying ∅ (some []))
    (idle : state.active = ∅) : Ledger work { state with selection := .ended } :=
  { ledger with
    asked := by simp
    waits := by simp
    idle := fun _ => idle
    caughtUp := fun _ => ledger.caughtUp (.inr answered)
    exact := fun still => { ledger.exact still with answered := by simp } }

/-- The writer collects the next transaction of a job. -/
theorem push {height : Nat} {id : TransactionId} {ids : List TransactionId}
    (ledger : Ledger (⟨height, id :: ids⟩ ::ₘ work) state) :
    Ledger (⟨height, ids⟩ ::ₘ work) { state with objects := state.objects ++ [(id, height)] } := by
  have same : outstanding (⟨height, ids⟩ ::ₘ work) (state.objects ++ [(id, height)]) =
      outstanding (⟨height, id :: ids⟩ ::ₘ work) state.objects := by
    rw [outstanding_cons, outstanding_cons, outstanding, outstanding, ← Multiset.coe_add,
      TransactionJob.rows, TransactionJob.rows, List.map_cons, ← Multiset.cons_coe,
      ← Multiset.cons_coe, Multiset.coe_nil]
    simp only [← Multiset.singleton_add, add_zero]
    abel
  exact
    { ledger with
      owned := by simpa using ledger.owned
      distinct := by simpa using ledger.distinct
      collected := by
        refine List.forall_mem_append.mpr ⟨ledger.collected, ?_⟩
        exact List.forall_mem_singleton.mpr ((ledger.owned height).mpr (.inl (by simp)))
      logged := by
        rw [same]
        exact ledger.logged
      exact := fun still =>
        { ledger.exact still with
          nodup := by
            rw [same]
            exact (ledger.exact still).nodup
          pending := by
            rw [same]
            exact (ledger.exact still).pending } }

theorem outstanding_done (height : Nat) (objects : List (TransactionId × Nat)) :
    outstanding (⟨height, []⟩ ::ₘ work) objects = outstanding work objects := by
  simp [outstanding_cons, TransactionJob.rows]

/-- The active heights shrink to those that are still in hand. -/
theorem shrink {rest : Multiset TransactionJob} (ledger : Ledger work state)
    (calm : state.selection ≠ .waiting false) {active : Finset Nat} {completed : List Nat}
    (smaller : active ⊆ state.active)
    (owned : ∀ height, height ∈ active ↔
      height ∈ rest.map TransactionJob.height ∨ height ∈ completed)
    (distinct : (rest.map TransactionJob.height + (completed : Multiset Nat)).Nodup)
    (collected : ∀ entry ∈ state.objects, entry.2 ∈ active)
    (same : outstanding rest state.objects = outstanding work state.objects) :
    Ledger rest { state with active, completed } :=
  { ledger with
    owned := owned
    distinct := distinct
    few := (Finset.card_le_card smaller).trans ledger.few
    collected := collected
    queued := ⟨ledger.queued.1, fun job member inside =>
      ledger.queued.2 job member (smaller inside)⟩
    asked := fun excluded answer same =>
      have asked := ledger.asked excluded answer same
      ⟨asked.1, smaller.trans asked.2.1, asked.2.2⟩
    waits := fun waiting => absurd waiting calm
    idle := fun ended => by
      have none := ledger.idle ended
      rw [none] at smaller
      exact Finset.subset_empty.mp smaller
    logged := by
      rw [same]
      exact ledger.logged
    exact := fun still =>
      { ledger.exact still with
        nodup := by
          rw [same]
          exact (ledger.exact still).nodup
        pending := by
          rw [same]
          exact (ledger.exact still).pending } }

/-- Heights are released together with the notice of it. -/
theorem notify {rest : Multiset TransactionJob} (ledger : Ledger work state) {active : Finset Nat}
    {completed : List Nat} (smaller : active ⊆ state.active)
    (owned : ∀ height, height ∈ active ↔
      height ∈ rest.map TransactionJob.height ∨ height ∈ completed)
    (distinct : (rest.map TransactionJob.height + (completed : Multiset Nat)).Nodup)
    (collected : ∀ entry ∈ state.objects, entry.2 ∈ active)
    (same : outstanding rest state.objects = outstanding work state.objects) :
    Ledger rest { state with active, completed }.notify := by
  by_cases waiting : state.selection = .waiting false
  · have woken := (ledger.reselect state.permit (.inr (.inl rfl))).shrink (by simp)
      smaller owned distinct collected same
    simpa [ImportState.notify, waiting] using woken
  · have calm : Ledger work { state with permit := true } :=
      { ledger with
        waits := fun isWaiting => absurd isWaiting waiting
        exact := fun still => { ledger.exact still with } }
    have shrunk := calm.shrink waiting smaller owned distinct collected same
    have permitted : { state with active, completed }.notify =
        { state with active, completed, permit := true } := by
      unfold ImportState.notify
      split
      · next isWaiting => exact absurd isWaiting waiting
      · rfl
    rw [permitted]
    exact shrunk

/-- A job that has been pushed while nothing is left to record gives its height back. -/
theorem retire {height : Nat} (ledger : Ledger (⟨height, []⟩ ::ₘ work) state)
    (none : state.objects = []) :
    Ledger work { state with active := state.active.erase height }.notify := by
  have distinct := ledger.distinct
  rw [Multiset.map_cons, Multiset.cons_add, Multiset.nodup_cons] at distinct
  refine ledger.notify (Finset.erase_subset _ _) ?_ distinct.2
    (by simp [none]) (outstanding_done height _).symm
  intro other
  rw [Finset.mem_erase, ledger.owned other, Multiset.map_cons, Multiset.mem_cons]
  constructor
  · rintro ⟨differ, (same | inWork) | inCompleted⟩
    · exact (differ same).elim
    · exact .inl inWork
    · exact .inr inCompleted
  · intro inHand
    refine ⟨?_, inHand.imp_left .inr⟩
    rintro rfl
    exact distinct.1 (by simpa using inHand)

/-- A job that has been pushed waits for the objects in front of it. -/
theorem complete {height : Nat} (ledger : Ledger (⟨height, []⟩ ::ₘ work) state) :
    Ledger work { state with completed := state.completed ++ [height] } :=
  { ledger with
    owned := by
      intro other
      rw [ledger.owned other]
      simp [or_assoc, or_comm, or_left_comm]
    distinct := by
      have distinct := ledger.distinct
      rw [Multiset.map_cons, Multiset.cons_add] at distinct
      have moved : work.map TransactionJob.height +
            ((state.completed ++ [height] : List Nat) : Multiset Nat) =
          height ::ₘ (work.map TransactionJob.height + (state.completed : Multiset Nat)) := by
        rw [← Multiset.coe_add, Multiset.coe_singleton, ← Multiset.singleton_add]
        abel
      rw [moved]
      exact distinct
    logged := by
      have logged := ledger.logged
      rwa [outstanding_done] at logged
    exact := fun still =>
      { ledger.exact still with
        nodup := by
          have nodup := (ledger.exact still).nodup
          rwa [outstanding_done] at nodup
        pending := by
          have pending := (ledger.exact still).pending
          rwa [outstanding_done] at pending } }

/-- Heights whose objects have been recorded are released. -/
theorem release (ledger : Ledger work state) (none : state.objects = []) :
    Ledger work state.release := by
  have distinct := ledger.distinct
  rw [Multiset.nodup_add] at distinct
  refine ledger.notify Finset.sdiff_subset ?_ (by simpa using distinct.1) (by simp [none]) rfl
  intro height
  rw [Finset.mem_sdiff, ledger.owned height, List.mem_toFinset]
  constructor
  · rintro ⟨inWork | inCompleted, apart⟩
    · exact .inl inWork
    · exact (apart inCompleted).elim
  · rintro (inWork | impossible)
    · exact ⟨.inl inWork, fun inCompleted =>
        Multiset.disjoint_left.mp distinct.2.2 inWork (by simpa using inCompleted)⟩
    · cases impossible

/-- What has been collected is recorded. -/
theorem recordObjects (ledger : Ledger work state) : Ledger work state.recordObjects :=
  { ledger with
    collected := by simp [ImportState.recordObjects]
    unique := ledger.unique.sublist (List.filter_sublist.map _)
    incomplete := by
      intro row member
      obtain ⟨inPending, apart⟩ := List.mem_filter.mp member
      simp only [ImportState.recordObjects, Finset.mem_union, List.mem_toFinset, not_or]
      exact ⟨ledger.incomplete row inPending, by simpa using apart⟩
    recorded := by
      intro id member
      simp only [ImportState.recordObjects, Finset.mem_union, List.mem_toFinset]
      exact (List.mem_append.mp member).imp_left (ledger.recorded id)
    logged := by
      intro job member id inJob
      rcases ledger.logged job member id inJob with old | inHand
      · exact .inl (List.mem_append_left _ old)
      · rcases Multiset.mem_add.mp inHand with inWork | inObjects
        · exact .inr (Multiset.mem_add.mpr (.inl inWork))
        · exact .inl (List.mem_append_right _
            (List.mem_map_of_mem (f := Prod.fst) (by simpa using inObjects)))
    caughtUp := by
      intro reached pending
      refine ledger.caughtUp reached fun none => pending ?_
      simp [ImportState.recordObjects, none]
    exact := by
      intro still
      have exact := ledger.exact still
      have nodup := exact.nodup
      rw [outstanding, Multiset.map_add, Multiset.nodup_add] at nodup
      have objectsNodup : (state.objects.map Prod.fst).Nodup := by simpa using nodup.2.1
      have survives {row : PendingRow} (member : row ∈ state.pending)
          (inactive : row.height ∉ state.active) : row ∈ state.recordObjects.pending := by
        refine List.mem_filter.mpr ⟨member, ?_⟩
        have apart := ledger.not_outstanding exact member inactive
        rw [outstanding, Multiset.map_add, Multiset.mem_add, not_or] at apart
        simpa using apart.2
      exact
        { recorded := by
            refine exact.recorded.append objectsNodup fun id inRecorded inObjects => ?_
            obtain ⟨entry, member, rfl⟩ := List.mem_map.mp inObjects
            obtain ⟨row, inPending, same, _⟩ := exact.pending entry
              (Multiset.mem_add.mpr (.inr (by simpa using member)))
            exact ledger.incomplete row inPending (same ▸ ledger.recorded _ inRecorded)
          nodup := by simpa [outstanding, ImportState.recordObjects] using nodup.1
          pending := by
            intro entry member
            have inWork : entry ∈ work.bind TransactionJob.rows := by
              simpa [outstanding, ImportState.recordObjects] using member
            obtain ⟨row, inPending, same, atHeight⟩ := exact.pending entry
              (Multiset.mem_add.mpr (.inl inWork))
            refine ⟨row, List.mem_filter.mpr ⟨inPending, ?_⟩, same, atHeight⟩
            have apart := Multiset.disjoint_left.mp nodup.2.2 (Multiset.mem_map_of_mem _ inWork)
            simpa [same] using apart
          queued := by
            intro job member
            obtain ⟨ids, known⟩ := exact.queued job member
            refine ⟨ids, fun id inJob => ?_⟩
            obtain ⟨row, inPending, same, atHeight⟩ := known id inJob
            exact ⟨row, survives inPending (atHeight ▸ ledger.queued.2 job member), same, atHeight⟩
          answered := by
            intro excluded rows answered
            obtain ⟨ids, known⟩ := exact.answered excluded rows answered
            obtain ⟨_, covered, apart⟩ := ledger.asked _ _ answered
            exact ⟨ids, fun row member => survives (known row member) fun active =>
              apart rows rfl row member (covered active)⟩ } }

/-- What the placement of a transaction may change. -/
theorem place_cases (state : ImportState) (height : Nat) (transaction : TransactionId × Nat) :
    ∃ pending moved, state.place height transaction = { state with pending, moved } ∧
      ((state.pending.map PendingRow.id).Nodup → (pending.map PendingRow.id).Nodup) ∧
      ((∀ row ∈ state.pending, row.id ∉ state.complete) →
        ∀ row ∈ pending, row.id ∉ state.complete) ∧
      (moved = false → state.moved = false ∧ state.pending ⊆ pending) := by
  rw [ImportState.place]
  split
  · exact ⟨state.pending, state.moved, rfl, id, id, fun still => ⟨still, List.Subset.refl _⟩⟩
  · next incomplete =>
    split
    · next missing =>
      refine ⟨_, state.moved, rfl, fun unique => ?_, fun known => ?_, fun still =>
        ⟨still, List.subset_append_left _ _⟩⟩
      · rw [List.map_append, List.map_singleton]
        refine unique.append (List.nodup_singleton _) ?_
        rw [List.disjoint_singleton]
        intro present
        obtain ⟨row, member, same⟩ := List.mem_map.mp present
        simpa [same] using List.find?_eq_none.mp missing row member
      · refine List.forall_mem_append.mpr ⟨known, ?_⟩
        simpa using incomplete
    · next row found =>
      split
      · refine ⟨_, true, rfl, fun unique => by rwa [PendingRow.ids_replace], fun known => ?_, by simp⟩
        refine List.forall_mem_map.mpr fun other member => ?_
        split
        · exact incomplete
        · exact known other member
      · exact ⟨state.pending, state.moved, rfl, id, id, fun still => ⟨still, List.Subset.refl _⟩⟩

theorem place (ledger : Ledger work state) (announcing : state.announcing = true) (height : Nat)
    (transaction : TransactionId × Nat) :
    Ledger work (state.place height transaction) ∧
      (state.place height transaction).announcing = true := by
  obtain ⟨pending, moved, placed, unique, incomplete, grows⟩ := place_cases state height transaction
  rw [placed]
  refine ⟨?_, announcing⟩
  exact
    { ledger with
      unique := unique ledger.unique
      incomplete := incomplete ledger.incomplete
      caughtUp := fun _ _ => .inl announcing
      exact := by
        intro still
        obtain ⟨wasStill, subset⟩ := grows still
        have exact := ledger.exact wasStill
        exact
          { exact with
            pending := fun entry member =>
              have ⟨row, inPending, same⟩ := exact.pending entry member
              ⟨row, subset inPending, same⟩
            queued := fun job member =>
              have ⟨ids, known⟩ := exact.queued job member
              ⟨ids, fun id inJob =>
                have ⟨row, inPending, same⟩ := known id inJob
                ⟨row, subset inPending, same⟩⟩
            answered := fun excluded rows answered =>
              have ⟨ids, known⟩ := exact.answered excluded rows answered
              ⟨ids, fun row member => subset (known row member)⟩ } }

theorem recordBlockMetadata (ledger : Ledger work state) (announcing : state.announcing = true)
    (height : Nat) (ids : List TransactionId) :
    Ledger work (state.recordBlockMetadata height ids) := by
  rw [ImportState.recordBlockMetadata]
  generalize ids.zipIdx = transactions
  induction transactions generalizing state with
  | nil => exact ledger
  | cons transaction transactions induction =>
      obtain ⟨placed, stillAnnouncing⟩ := ledger.place announcing height transaction
      exact induction placed stillAnnouncing

/-- A pass begins with nothing in hand. -/
theorem pass (ledger : Ledger 0 state) (none : state.objects = []) : Ledger 0 state.pass where
  owned := by simp [ImportState.pass]
  distinct := by simp [ImportState.pass]
  few := by simp [ImportState.pass]
  collected := by simp [ImportState.pass]
  queued := by simp [ImportState.pass]
  asked := by simp [ImportState.pass]
  waits := by simp [ImportState.pass]
  idle := by simp [ImportState.pass]
  unique := ledger.unique
  incomplete := ledger.incomplete
  recorded := ledger.recorded
  logged := by
    have logged := ledger.logged
    rwa [none] at logged
  caughtUp := by simp [ImportState.pass]
  exact := fun still =>
    { recorded := (ledger.exact still).recorded
      nodup := by simp [outstanding, ImportState.pass]
      pending := by simp [outstanding, ImportState.pass]
      queued := by simp [ImportState.pass]
      answered := by simp [ImportState.pass] }

end Ledger

end

/-- What the steps keep of the way from the fetches to the writer. -/
structure Flow (state : ImportState) : Prop where
  sent : state.sending ≠ none → state.batch = []
  stops : state.producing = false → state.batch = [] ∧ state.sending = none ∧
    (state.selection = .ended ∧ state.fetching = [] ∨ state.Fails)
  broken : state.selection = .broken → none ∈ state.fetching ∨ state.Fails
  resting : state.writer = .receiving ∨ state.writer = .finished →
    state.objects = [] ∧ state.completed = []
  finished : state.writer = .finished → state.producing = false ∧ state.channel = []
  last : state.closed → state.announcing = false
  concluded : state.ended → state.pending = []

/-- What every step of an import keeps. -/
structure Imports (state : ImportState) : Prop where
  ledger : Ledger state.work state
  flow : Flow state

section

variable {state after : ImportState}

namespace ImportState

theorem notify_cases (state : ImportState) :
    state.selection = .waiting false ∧ state.notify = { state with selection := .waiting true } ∨
      state.selection ≠ .waiting false ∧ state.notify = { state with permit := true } := by
  rw [notify]
  split
  · next waiting => exact .inl ⟨waiting, rfl⟩
  · next calm => exact .inr ⟨calm, rfl⟩

@[simp] theorem work_notify (state : ImportState) : state.notify.work = state.work := by
  rcases state.notify_cases with ⟨_, same⟩ | ⟨_, same⟩ <;> rw [same] <;> rfl

@[simp] theorem work_await (state : ImportState) : state.await.work = state.work := by
  rw [await]
  split <;> rfl

theorem work_fetch_some (job : TransactionJob) {active : Finset Nat}
    {queued selected : List TransactionJob} :
    { state with active, queued, selected, fetching := state.fetching ++ [some job] }.work =
      job ::ₘ state.work := by
  have fetching : ((state.fetching ++ [some job] : List (Option TransactionJob)) :
      Multiset (Option TransactionJob)).filterMap id =
      (state.fetching : Multiset (Option TransactionJob)).filterMap id + {job} := by
    simp only [← Multiset.coe_add, Multiset.filterMap_add]
    rfl
  rw [work, fetching, ← Multiset.singleton_add]
  simp only [work, results]
  abel

theorem polls_iff : state.polls = true ↔
    state.producing = true ∧ state.sending = none ∧ state.batch.length < readyChunk := by
  simp [polls, and_assoc]

end ImportState

namespace Flow

theorem notify (flow : Flow state) : Flow state.notify := by
  rcases state.notify_cases with ⟨waiting, same⟩ | ⟨_, same⟩
  · rw [same]
    exact
      { flow with
        stops := fun stopped => by
          have stops := flow.stops stopped
          rw [waiting] at stops
          exact ⟨stops.1, stops.2.1, .inr (stops.2.2.resolve_left (by simp))⟩
        broken := by simp }
  · rw [same]
    exact { flow with }

/-- As long as results are polled, the selection may move on. -/
theorem reselect (flow : Flow state) (producing : state.producing = true)
    (permit : Bool) {selection : SelectionPhase} (whole : selection ≠ .broken) :
    Flow { state with selection, permit } :=
  { flow with
    stops := by simp [producing]
    broken := fun broken => absurd broken whole }

theorem await (flow : Flow state) (producing : state.producing = true) : Flow state.await := by
  rw [ImportState.await]
  split
  · exact flow.reselect producing false (by simp)
  · exact flow.reselect producing state.permit (by simp)

end Flow

theorem Imports.select (imports : Imports state) (polls : state.polls = true)
    (taken : state.select = some after) : Imports after := by
  obtain ⟨ledger, flow⟩ := imports
  obtain ⟨producing, _⟩ := ImportState.polls_iff.mp polls
  cases selection : state.selection with
  | ready =>
      simp only [ImportState.select, selection] at taken
      split at taken
      · next full =>
        cases taken
        have busy : state.active.Nonempty := Finset.card_pos.mp (by rw [full]; decide)
        exact ⟨by simpa using ledger.await busy, flow.await producing⟩
      · next room =>
        split at taken
        · next job rest queued =>
          cases taken
          rw [← selection]
          refine ⟨?_, { flow with stops := by simp [producing], broken := by simp [selection] }⟩
          have started := ledger.start queued selection room (state.fetching ++ [some job])
          convert started using 1
          exact ImportState.work_fetch_some job
        · next queued =>
          cases taken
          exact ⟨ledger.ask queued, flow.reselect producing state.permit (by simp)⟩
  | waiting woken =>
      cases woken with
      | false => simp [ImportState.select, selection] at taken
      | true =>
          simp only [ImportState.select, selection] at taken
          cases taken
          exact ⟨ledger.reselect state.permit (.inl rfl),
            flow.reselect producing state.permit (by simp)⟩
  | querying excluded answer =>
      cases answer with
      | none => simp [ImportState.select, selection] at taken
      | some rows =>
          cases rows with
          | nil =>
              simp only [ImportState.select, selection] at taken
              split at taken
              · cases taken
                exact ⟨ledger.reselect state.permit (.inl rfl),
                  flow.reselect producing state.permit (by simp)⟩
              · next same =>
                obtain rfl := not_not.mp same
                split at taken
                · next idle =>
                  cases taken
                  rw [idle] at selection
                  exact ⟨ledger.finish selection idle,
                    flow.reselect producing state.permit (by simp)⟩
                · next busy =>
                  cases taken
                  exact ⟨by simpa using ledger.await (Finset.nonempty_iff_ne_empty.mpr busy),
                    flow.await producing⟩
          | cons row rows =>
              simp only [ImportState.select, selection] at taken
              cases taken
              exact ⟨ledger.group selection, { flow with
                stops := by simp [producing], broken := by simp }⟩
  | ended => simp [ImportState.select, selection] at taken
  | broken => simp [ImportState.select, selection] at taken

end

section

variable {state after : ImportState}

/-- The ledger does not look at the way of the results. -/
theorem Ledger.flowing {work : Multiset TransactionJob} (ledger : Ledger work state)
    (fetching : List (Option TransactionJob)) (batch : List FetchResult)
    (sending : Option (List FetchResult)) (channel : List (List FetchResult)) (producing : Bool)
    (writer : WriterPhase) (failed closed ended : Bool) :
    Ledger work
      { state with fetching, batch, sending, channel, producing, writer, failed, closed, ended } :=
  { ledger with exact := fun still => { ledger.exact still with } }

theorem Ledger.writing {work : Multiset TransactionJob} (ledger : Ledger work state)
    (writer : WriterPhase) : Ledger work { state with writer } :=
  ledger.flowing state.fetching state.batch state.sending state.channel state.producing writer
    state.failed state.closed state.ended

/-- The jobs that the writer has not received. -/
def ImportState.upstream (state : ImportState) : Multiset TransactionJob :=
  (state.fetching : Multiset _).filterMap id +
    ((state.batch : Multiset _) + (state.sending.getD [] : Multiset _) +
      (state.channel.flatten : Multiset _)).filterMap FetchResult.job

/-- The jobs that the writer has not begun. -/
def ImportState.ahead (state : ImportState) : Multiset TransactionJob :=
  state.upstream + (state.writer.results : Multiset _).filterMap FetchResult.job

theorem ImportState.work_eq (state : ImportState) :
    state.work = state.ahead + (state.writer.current.toList : Multiset _) := by
  simp only [work, results, ahead, upstream, Multiset.filterMap_add]
  abel

theorem ImportState.work_of_none (none : state.writer.current = none) : state.work = state.ahead := by
  simp [work_eq, none]

theorem ImportState.work_of_some {job : TransactionJob} (some : state.writer.current = some job) :
    state.work = job ::ₘ state.ahead := by
  simp [work_eq, some, ← Multiset.singleton_add, add_comm]

theorem ImportState.ahead_of_results {writer : WriterPhase}
    (same : writer.results = state.writer.results) : { state with writer }.ahead = state.ahead := by
  simp only [ahead, same]
  rfl

/-- The writer may go on, when it keeps the results that failed. -/
theorem Flow.writing (flow : Flow state) (running : state.ended = false) {writer : WriterPhase}
    {objects : List (TransactionId × Nat)} {completed : List Nat}
    (keeps : ∀ result ∈ state.writer.results, result.verified = none → result ∈ writer.results)
    (unfinished : writer ≠ .finished)
    (resting : writer = .receiving → objects = [] ∧ completed = [])
    (pending : List PendingRow) (complete : Finset TransactionId) (recorded : List TransactionId)
    (active : Finset Nat) :
    Flow { state with pending, complete, recorded, active, writer, objects, completed } := by
  have fails : state.Fails →
      { state with pending, complete, recorded, active, writer, objects, completed }.Fails := by
    rintro ⟨result, member, none⟩
    refine ⟨result, ?_, none⟩
    rw [ImportState.results, Multiset.mem_add] at member ⊢
    exact member.imp_right fun inWriter => by simpa using keeps result (by simpa using inWriter) none
  exact
    { sent := flow.sent
      stops := fun stopped =>
        have stops := flow.stops stopped
        ⟨stops.1, stops.2.1, stops.2.2.imp_right fails⟩
      broken := fun broken => (flow.broken broken).imp_right fails
      resting := fun rests => resting (rests.resolve_right unfinished)
      finished := fun finished => absurd finished unfinished
      last := flow.last
      concluded := fun ended => by simp [running] at ended }

theorem Imports.write (imports : Imports state) (running : state.ended = false)
    (taken : state.write = some after) : Imports after := by
  obtain ⟨ledger, flow⟩ := imports
  rw [ImportState.write] at taken
  split at taken
  · next writer =>
    rw [ImportState.work_of_none (by rw [writer]; rfl)] at ledger
    split at taken
    · next empty =>
      cases taken
      refine ⟨?_, ?_⟩
      · rw [ImportState.release, ImportState.work_notify, ImportState.work_of_none rfl]
        have same : { state with writer := .receiving }.ahead = state.ahead :=
          ImportState.ahead_of_results (by rw [writer]; rfl)
        have released := (ledger.writing .receiving).release empty
        rw [← same] at released
        exact released
      · exact (flow.writing running (by simp [writer, WriterPhase.results]) (by simp)
          (by simp [empty]) state.pending state.complete state.recorded _).notify
    · next collected =>
      cases taken
      refine ⟨?_, ?_⟩
      · rw [ImportState.work_of_none rfl, ImportState.ahead_of_results (by rw [writer]; rfl)]
        exact ledger.writing .flushingLast
      · exact flow.writing running (by simp [writer, WriterPhase.results]) (by simp) (by simp)
          state.pending state.complete state.recorded state.active
  · next job verified results writer =>
    cases taken
    refine ⟨?_, ?_⟩
    · have same : state.ahead = job ::ₘ
          { state with writer := .pushing results job.height job.ids verified }.ahead := by
        rw [ImportState.ahead, writer, WriterPhase.results, ← Multiset.cons_coe,
          Multiset.filterMap_cons_some FetchResult.job _ _ rfl, Multiset.add_cons]
        rfl
      rw [ImportState.work_of_none (by rw [writer]; rfl), same] at ledger
      rw [ImportState.work_of_some rfl]
      exact ledger.writing _
    · exact flow.writing running (by
          rw [writer]
          rintro result (_ | ⟨_, known⟩) none
          · cases none
          · exact known) (by simp) (by simp)
        state.pending state.complete state.recorded state.active
  · next writer =>
    cases taken
    exact ⟨ledger.flowing _ _ _ _ _ _ true _ _, { flow with }⟩
  · next results height id ids verified writer =>
    split at taken
    · cases taken
      rw [ImportState.work_of_some (by rw [writer]; rfl)] at ledger
      generalize next : (if (state.objects ++ [(id, height)]).length = metadataBatchSize then
        WriterPhase.flushing results height ids (verified.erase id)
        else .pushing results height ids (verified.erase id)) = phase
      have kept : phase.results = state.writer.results := by
        rw [writer, ← next]
        split <;> rfl
      have current : phase.current = some ⟨height, ids⟩ := by
        rw [← next]
        split <;> rfl
      have busy : phase ≠ .receiving ∧ phase ≠ .finished := by
        rw [← next]
        split <;> simp
      refine ⟨?_, ?_⟩
      · rw [ImportState.work_of_some current]
        have ahead := ImportState.ahead_of_results kept
        have pushed := ledger.push.writing phase
        rw [← ahead] at pushed
        exact pushed
      · exact flow.writing running (fun result member _ => kept ▸ member) busy.2
          (fun rests => absurd rests busy.1) state.pending state.complete state.recorded state.active
    · cases taken
      exact ⟨ledger.flowing _ _ _ _ _ _ true _ _, { flow with }⟩
  · next results height verified writer =>
    rw [ImportState.work_of_some (by rw [writer]; rfl)] at ledger
    have kept : (WriterPhase.taking results).results = state.writer.results := by rw [writer]; rfl
    have ahead := ImportState.ahead_of_results kept
    rw [← ahead] at ledger
    split at taken
    · next empty =>
      cases taken
      refine ⟨?_, ?_⟩
      · rw [ImportState.work_notify, ImportState.work_of_none rfl]
        exact (ledger.writing (.taking results)).retire empty
      · exact (flow.writing running (fun result member _ => kept ▸ member) (by simp) (by simp)
          state.pending state.complete state.recorded _).notify
    · cases taken
      refine ⟨?_, ?_⟩
      · rw [ImportState.work_of_none rfl]
        exact (ledger.writing (.taking results)).complete
      · exact flow.writing running (fun result member _ => kept ▸ member) (by simp) (by simp)
          state.pending state.complete state.recorded state.active
  · cases taken

theorem Imports.record (imports : Imports state) (running : state.ended = false) {succeeds : Bool}
    (taken : state.record succeeds = some after) : Imports after := by
  obtain ⟨ledger, flow⟩ := imports
  rw [ImportState.record] at taken
  split at taken
  · next results height ids verified writer =>
    split at taken
    · cases taken
      have kept : (WriterPhase.pushing results height ids verified).results =
          state.writer.results := by rw [writer]; rfl
      rw [ImportState.work_of_some (by rw [writer]; rfl), ← ImportState.ahead_of_results kept]
        at ledger
      refine ⟨?_, ?_⟩
      · rw [ImportState.release, ImportState.work_notify, ImportState.work_of_some rfl]
        exact (ledger.recordObjects.writing (.pushing results height ids verified)).release rfl
      · exact (flow.writing running (fun result member _ => kept ▸ member) (by simp) (by simp)
          _ _ _ _).notify
    · cases taken
      exact ⟨ledger.flowing _ _ _ _ _ _ true _ _, { flow with }⟩
  · next writer =>
    split at taken
    · cases taken
      have kept : WriterPhase.receiving.results = state.writer.results := by rw [writer]; rfl
      rw [ImportState.work_of_none (by rw [writer]; rfl), ← ImportState.ahead_of_results kept]
        at ledger
      refine ⟨?_, ?_⟩
      · rw [ImportState.release, ImportState.work_notify, ImportState.work_of_none rfl]
        exact (ledger.recordObjects.writing .receiving).release rfl
      · exact (flow.writing running (fun result member _ => kept ▸ member) (by simp)
          (fun _ => ⟨rfl, rfl⟩) _ _ _ _).notify
    · cases taken
      exact ⟨ledger.flowing _ _ _ _ _ _ true _ _, { flow with }⟩
  · cases taken

end

section

variable {state after : ImportState}

theorem ImportState.results_eq_zero (state : ImportState) (batch : state.batch = [])
    (sending : state.sending = none) (channel : state.channel = [])
    (writer : state.writer.results = []) : state.results = 0 := by
  simp [results, batch, sending, channel, writer]

/-- A writer that has finished leaves nothing behind. -/
theorem Imports.idle_of_finished (imports : Imports state) (finished : state.writer = .finished) :
    state.selection = .ended ∧ state.work = 0 ∧ state.objects = [] := by
  obtain ⟨_, flow⟩ := imports
  obtain ⟨stopped, channel⟩ := flow.finished finished
  obtain ⟨batch, sending, cause⟩ := flow.stops stopped
  have results := state.results_eq_zero batch sending channel (by rw [finished]; rfl)
  rcases cause with ⟨ended, fetching⟩ | ⟨result, member, _⟩
  · refine ⟨ended, ?_, (flow.resting (.inr finished)).1⟩
    simp [ImportState.work, results, fetching, finished, WriterPhase.current]
  · rw [results] at member
    cases Multiset.notMem_zero _ member

theorem Flow.turn (flow : Flow state) (unended : state.selection ≠ .ended)
    {selection : SelectionPhase} (whole : selection ≠ .broken) : Flow { state with selection } :=
  { flow with
    stops := fun stopped =>
      have stops := flow.stops stopped
      ⟨stops.1, stops.2.1, .inr (stops.2.2.resolve_left fun ended => unended ended.1)⟩
    broken := fun broken => absurd broken whole }

theorem recordBlockMetadata_eq (state : ImportState) (height : Nat) (ids : List TransactionId) :
    ∃ pending moved, state.recordBlockMetadata height ids = { state with pending, moved } := by
  rw [ImportState.recordBlockMetadata]
  generalize ids.zipIdx = transactions
  induction transactions generalizing state with
  | nil => exact ⟨state.pending, state.moved, rfl⟩
  | cons transaction transactions induction =>
      obtain ⟨pending, moved, placed, _⟩ := Ledger.place_cases state height transaction
      obtain ⟨morePending, moreMoved, rest⟩ := induction { state with pending, moved }
      exact ⟨morePending, moreMoved, by rw [List.foldl_cons, placed, rest]⟩

/-- The result of a fetch takes the place of its job. -/
theorem ImportState.work_fetch {place : Nat} {job : Option TransactionJob}
    (found : state.fetching[place]? = some job) (verified : Option (List TransactionId)) :
    { state with
      fetching := state.fetching.eraseIdx place
      batch := state.batch ++ [(⟨job, verified⟩ : FetchResult)] }.work = state.work := by
  obtain ⟨inside, rfl⟩ := List.getElem?_eq_some_iff.mp found
  have split : (state.fetching : Multiset (Option TransactionJob)) =
      state.fetching[place] ::ₘ (state.fetching.eraseIdx place : Multiset _) := by
    rw [Multiset.cons_coe, Multiset.coe_eq_coe]
    exact (List.getElem_cons_eraseIdx_perm inside).symm
  have more : ((state.batch ++ [⟨state.fetching[place], verified⟩] : List FetchResult) :
      Multiset FetchResult) = ⟨state.fetching[place], verified⟩ ::ₘ (state.batch : Multiset _) := by
    rw [← Multiset.coe_add, Multiset.coe_singleton, add_comm, Multiset.singleton_add]
  simp only [work, results, more, split, Multiset.filterMap_add, Multiset.filterMap_cons, id]
  abel

theorem Imports.answer (imports : Imports state)
    (taken : state.advance .answer = some after) : Imports after := by
  have ledger := imports.ledger
  have flow := imports.flow
  simp only [ImportState.advance] at taken
  split at taken
  · next excluded asked =>
    cases taken
    exact ⟨ledger.answer (by decide) asked, flow.turn (by rw [asked]; simp) (by simp)⟩
  · cases taken

theorem Imports.refuse (imports : Imports state)
    (taken : state.advance .refuse = some after) : Imports after := by
  have ledger := imports.ledger
  have flow := imports.flow
  simp only [ImportState.advance] at taken
  split at taken
  · next excluded asked =>
    split at taken
    · next polls =>
      cases taken
      have producing := (ImportState.polls_iff.mp polls.1).1
      refine ⟨?_, ?_⟩
      · have same : { state with
            selection := .broken, fetching := state.fetching ++ [none] }.work = state.work := by
          simp only [ImportState.work, ← Multiset.coe_add, Multiset.filterMap_add]
          have nothing : (([none] : List (Option TransactionJob)) :
              Multiset (Option TransactionJob)).filterMap id = 0 := rfl
          rw [nothing, add_zero]
          rfl
        rw [same]
        exact (ledger.reselect state.permit (.inr (.inr rfl))).flowing _ _ _ _ _ _ _ _ _
      · exact
          { flow with
            stops := by simp [producing]
            broken := fun _ => .inl (by simp) }
    · cases taken
  · cases taken

theorem Imports.fetch (imports : Imports state) {place : Nat}
    {verified : Option (List TransactionId)}
    (taken : state.advance (.fetch place verified) = some after) : Imports after := by
  have ledger := imports.ledger
  have flow := imports.flow
  simp only [ImportState.advance] at taken
  split at taken
  · next job found =>
    split at taken
    · next polls =>
      cases taken
      obtain ⟨producing, sending, _⟩ := ImportState.polls_iff.mp polls
      refine ⟨?_, ?_⟩
      · rw [ImportState.work_fetch found]
        exact ledger.flowing _ _ _ _ _ _ _ _ _
      · exact
          { flow with
            sent := fun isSending => absurd sending isSending
            stops := by simp [producing]
            broken := by
              intro broken
              rcases flow.broken broken with fetching | ⟨result, member, failed⟩
              · obtain ⟨inside, rfl⟩ := List.getElem?_eq_some_iff.mp found
                have split := (List.getElem_cons_eraseIdx_perm inside).mem_iff.mpr fetching
                rcases List.mem_cons.mp split with here | elsewhere
                · refine .inr ⟨⟨none, none⟩, ?_, rfl⟩
                  simp [ImportState.results, ← here]
                · exact .inl elsewhere
              · refine .inr ⟨result, ?_, failed⟩
                simp only [ImportState.results, ← Multiset.coe_add, Multiset.mem_add] at member ⊢
                tauto }
    · cases taken
  · cases taken

theorem Imports.cut (imports : Imports state)
    (taken : state.advance .cut = some after) : Imports after := by
  have ledger := imports.ledger
  have flow := imports.flow
  simp only [ImportState.advance] at taken
  split at taken
  · next ready =>
    cases taken
    obtain ⟨producing, sending, _⟩ := ready
    have results : { state with sending := some state.batch, batch := [] }.results =
        state.results := by
      simp [ImportState.results, sending]
    refine ⟨?_, ?_⟩
    · rw [ImportState.work, results]
      exact ledger.flowing _ _ _ _ _ _ _ _ _
    · exact
        { flow with
          sent := fun _ => rfl
          stops := by simp [producing]
          broken := by
            rw [ImportState.Fails, results]
            exact flow.broken }
  · cases taken

theorem Imports.send (imports : Imports state)
    (taken : state.advance .send = some after) : Imports after := by
  have ledger := imports.ledger
  have flow := imports.flow
  simp only [ImportState.advance] at taken
  split at taken
  · next batch sending =>
    split at taken
    · next room =>
      cases taken
      have empty : state.batch = [] := flow.sent (by simp [sending])
      have results : { state with
          sending := none, channel := state.channel ++ [batch]
          producing := batch.all fun result => result.verified.isSome }.results =
          state.results := by
        simp only [ImportState.results, sending, List.flatten_append, List.flatten_singleton,
          ← Multiset.coe_add, Option.getD_some, Option.getD_none, Multiset.coe_nil]
        abel
      refine ⟨?_, ?_⟩
      · rw [ImportState.work, results]
        exact ledger.flowing _ _ _ _ _ _ _ _ _
      · exact
          { flow with
            sent := by simp
            stops := by
              intro stopped
              obtain ⟨result, member, failed⟩ : ∃ result ∈ batch, result.verified = none := by
                simpa using stopped
              refine ⟨empty, rfl, .inr ⟨result, ?_, failed⟩⟩
              simp [ImportState.results, member]
            broken := by
              rw [ImportState.Fails, results]
              exact flow.broken
            finished := by
              intro finished
              have stopped := (flow.finished finished).1
              rw [room.1] at stopped
              cases stopped }
    · cases taken
  · cases taken

theorem Imports.drain (imports : Imports state)
    (taken : state.advance .drain = some after) : Imports after := by
  have ledger := imports.ledger
  have flow := imports.flow
  simp only [ImportState.advance] at taken
  split at taken
  · next polls =>
    cases taken
    obtain ⟨polls, ended, fetching, batch⟩ := polls
    obtain ⟨_, sending, _⟩ := ImportState.polls_iff.mp polls
    exact ⟨ledger.flowing _ _ _ _ _ _ _ _ _,
      { flow with
        stops := fun _ => ⟨batch, sending, .inl ⟨ended, fetching⟩⟩
        finished := fun finished => ⟨rfl, (flow.finished finished).2⟩ }⟩
  · cases taken

theorem Imports.receive (imports : Imports state)
    (taken : state.advance .receive = some after) : Imports after := by
  have ledger := imports.ledger
  have flow := imports.flow
  simp only [ImportState.advance] at taken
  split at taken
  · next batch channel writer filled =>
    cases taken
    have results : { state with writer := .taking batch, channel }.results = state.results := by
      simp only [ImportState.results, writer, filled, WriterPhase.results, List.flatten_cons,
        ← Multiset.coe_add, Multiset.coe_nil]
      abel
    refine ⟨?_, ?_⟩
    · rw [ImportState.work, results]
      have same := ledger.flowing state.fetching state.batch state.sending channel
        state.producing (.taking batch) state.failed state.closed state.ended
      rw [ImportState.work, writer] at same
      exact same
    · exact
        { flow with
          stops := by
            rw [ImportState.Fails, results]
            exact flow.stops
          broken := by
            rw [ImportState.Fails, results]
            exact flow.broken
          resting := by simp
          finished := by simp }
  · next writer empty =>
    split at taken
    · cases taken
    · next stopped =>
      cases taken
      have same := ledger.writing .finished
      have results : { state with writer := .finished }.results = state.results := by
        simp [ImportState.results, writer, WriterPhase.results]
      refine ⟨?_, ?_⟩
      · rw [ImportState.work, results]
        rw [ImportState.work, writer] at same
        exact same
      · exact
          { flow with
            stops := by
              rw [ImportState.Fails, results]
              exact flow.stops
            broken := by
              rw [ImportState.Fails, results]
              exact flow.broken
            resting := fun _ => flow.resting (.inl writer)
            finished := fun _ => ⟨by simpa using stopped, empty⟩ }
  · cases taken

theorem Imports.add (imports : Imports state) (running : state.ended = false) {height : Nat}
    {ids : List TransactionId}
    (taken : state.advance (.add height ids) = some after) : Imports after := by
  have ledger := imports.ledger
  have flow := imports.flow
  simp only [ImportState.advance] at taken
  split at taken
  · cases taken
  · next idle =>
    cases taken
    have announced : Ledger state.work { state with announcing := true } :=
      { ledger with
        caughtUp := fun _ _ => .inl rfl
        exact := fun still => { ledger.exact still with } }
    have added := announced.recordBlockMetadata rfl height ids
    obtain ⟨pending, moved, same⟩ := recordBlockMetadata_eq { state with announcing := true }
      height ids
    rw [same] at added ⊢
    have open_ : state.closed = false := by
      simpa using fun closed => idle (.inr closed)
    exact ⟨added,
      { flow with
        last := by simp [open_]
        concluded := by simp [running] }⟩

theorem Imports.announce (imports : Imports state)
    (taken : state.advance .announce = some after) : Imports after := by
  have ledger := imports.ledger
  have flow := imports.flow
  simp only [ImportState.advance] at taken
  split at taken
  · cases taken
    refine ⟨?_, { flow with last := fun _ => rfl }⟩
    exact
      { ledger with
        caughtUp := fun _ _ => .inr rfl
        exact := fun still => { ledger.exact still with } }
  · cases taken

theorem Imports.close (imports : Imports state)
    (taken : state.advance .close = some after) : Imports after := by
  have ledger := imports.ledger
  have flow := imports.flow
  simp only [ImportState.advance] at taken
  split at taken
  · cases taken
  · next idle =>
    cases taken
    have silent : state.announcing = false := by
      simpa using fun announcing => idle (.inl announcing)
    exact ⟨ledger.flowing _ _ _ _ _ _ _ _ _, { flow with last := fun _ => silent }⟩

theorem Imports.restart (imports : Imports state) (running : state.ended = false)
    (taken : state.advance .restart = some after) : Imports after := by
  have ledger := imports.ledger
  have flow := imports.flow
  simp only [ImportState.advance] at taken
  split at taken
  · next finished =>
    cases taken
    obtain ⟨_, work, objects⟩ := imports.idle_of_finished finished.1
    rw [work] at ledger
    exact ⟨ledger.pass objects,
      { sent := by simp [ImportState.pass]
        stops := by simp [ImportState.pass]
        broken := by simp [ImportState.pass]
        resting := fun _ => ⟨rfl, rfl⟩
        finished := by simp [ImportState.pass]
        last := flow.last
        concluded := by simp [ImportState.pass, running] }⟩
  · cases taken

theorem Imports.finish (imports : Imports state)
    (taken : state.advance .finish = some after) : Imports after := by
  have ledger := imports.ledger
  have flow := imports.flow
  simp only [ImportState.advance] at taken
  split at taken
  · next finished =>
    cases taken
    obtain ⟨writer, seen, closed⟩ := finished
    obtain ⟨ended, _⟩ := imports.idle_of_finished writer
    refine ⟨ledger.flowing _ _ _ _ _ _ _ _ _, { flow with concluded := fun _ => ?_ }⟩
    by_contra pending
    have later := ledger.caughtUp (.inl ended) pending
    simp [flow.last closed, seen] at later
  · cases taken

theorem Imports.advance (imports : Imports state) (running : state.ended = false)
    {action : ImportAction} (taken : state.advance action = some after) : Imports after := by
  cases action with
  | select =>
      simp only [ImportState.advance] at taken
      split at taken
      · next polls => exact imports.select polls.1 taken
      · cases taken
  | answer => exact imports.answer taken
  | refuse => exact imports.refuse taken
  | fetch place verified => exact imports.fetch taken
  | cut => exact imports.cut taken
  | send => exact imports.send taken
  | drain => exact imports.drain taken
  | receive => exact imports.receive taken
  | write => exact imports.write running taken
  | record succeeds => exact imports.record running taken
  | add height ids => exact imports.add running taken
  | announce => exact imports.announce taken
  | close => exact imports.close taken
  | restart => exact imports.restart running taken
  | finish => exact imports.finish taken

end

/-! ## Runs -/

section

variable {state after : ImportState}

theorem Imports.start {pending : List PendingRow} {complete : Finset TransactionId}
    (unique : (pending.map PendingRow.id).Nodup)
    (incomplete : ∀ row ∈ pending, row.id ∉ complete) :
    Imports (ImportState.start pending complete) where
  ledger :=
    { owned := by simp [ImportState.start, ImportState.work, ImportState.results,
        WriterPhase.results, WriterPhase.current]
      distinct := by simp [ImportState.start, ImportState.work, ImportState.results,
        WriterPhase.results, WriterPhase.current]
      few := by simp [ImportState.start]
      collected := by simp [ImportState.start]
      queued := by simp [ImportState.start]
      asked := by simp [ImportState.start]
      waits := by simp [ImportState.start]
      idle := by simp [ImportState.start]
      unique := unique
      incomplete := incomplete
      recorded := by simp [ImportState.start]
      logged := by simp [ImportState.start]
      caughtUp := by simp [ImportState.start]
      exact := fun _ =>
        { recorded := by simp [ImportState.start]
          nodup := by simp [ImportState.start, ImportState.work, ImportState.results,
            WriterPhase.results, WriterPhase.current, outstanding]
          pending := by simp [ImportState.start, ImportState.work, ImportState.results,
            WriterPhase.results, WriterPhase.current, outstanding]
          queued := by simp [ImportState.start]
          answered := by simp [ImportState.start] } }
  flow :=
    { sent := by simp [ImportState.start]
      stops := by simp [ImportState.start]
      broken := by simp [ImportState.start]
      resting := by simp [ImportState.start]
      finished := by simp [ImportState.start]
      last := by simp [ImportState.start]
      concluded := by simp [ImportState.start] }

theorem ImportState.step_eq_some {action : ImportAction} :
    state.step action = some after ↔
      state.failed = false ∧ state.ended = false ∧ state.advance action = some after := by
  rw [step]
  cases state.failed <;> cases state.ended <;> simp

theorem Imports.step (imports : Imports state) {action : ImportAction}
    (taken : state.step action = some after) : Imports after := by
  obtain ⟨_, running, taken⟩ := ImportState.step_eq_some.mp taken
  exact imports.advance running taken

/-- A writer that is neither between batches nor done goes on. -/
theorem ImportState.advance_of_writer (busy : state.writer ≠ .receiving)
    (undone : state.writer ≠ .finished) :
    (state.advance .write).isSome ∨ (state.advance (.record true)).isSome := by
  obtain ⟨writer, here⟩ : ∃ writer, state.writer = writer := ⟨_, rfl⟩
  rw [here] at busy undone
  cases writer with
  | receiving => exact (busy rfl).elim
  | finished => exact (undone rfl).elim
  | flushing results height ids verified => exact .inr (by simp [advance, record, here])
  | flushingLast => exact .inr (by simp [advance, record, here])
  | taking results =>
      refine .inl ?_
      cases results with
      | nil => by_cases empty : state.objects = [] <;> simp [advance, write, here, empty]
      | cons result results =>
          obtain ⟨job, verified⟩ := result
          cases job <;> cases verified <;> simp [advance, write, here]
  | pushing results height ids verified =>
      refine .inl ?_
      cases ids with
      | nil => by_cases empty : state.objects = [] <;> simp [advance, write, here, empty]
      | cons id ids => by_cases known : id ∈ verified <;> simp [advance, write, here, known]

/-- A selection from which nothing is in hand goes on, or has ended. -/
theorem Imports.selects (imports : Imports state) (writer : state.writer = .receiving)
    (channel : state.channel = []) (polls : state.polls = true) (batch : state.batch = [])
    (fetching : state.fetching = []) :
    (state.advance .select).isSome ∨ (state.advance .answer).isSome ∨
      (state.advance .drain).isSome := by
  obtain ⟨ledger, flow⟩ := imports
  obtain ⟨_, sending, _⟩ := ImportState.polls_iff.mp polls
  have results := state.results_eq_zero batch sending channel (by rw [writer]; rfl)
  have work : state.work = 0 := by
    simp [ImportState.work, results, fetching, writer, WriterPhase.current]
  have idle : state.active = ∅ := by
    refine Finset.eq_empty_of_forall_notMem fun height active => ?_
    have owned := (ledger.owned height).mp active
    simp [work, (flow.resting (.inl writer)).2] at owned
  obtain ⟨selection, here⟩ : ∃ selection, state.selection = selection := ⟨_, rfl⟩
  cases selection with
  | ready =>
      refine .inl ?_
      cases queued : state.queued <;>
        simp [ImportState.advance, ImportState.select, polls, fetching, here, idle, queued,
          maxActiveHeights]
  | waiting woken =>
      cases woken with
      | true =>
          exact .inl (by
            simp [ImportState.advance, ImportState.select, polls, fetching, here, maxActiveHeights])
      | false =>
          have busy := (ledger.waits here).2
          rw [idle] at busy
          exact absurd busy Finset.not_nonempty_empty
  | querying excluded answer =>
      cases answer with
      | none => exact .inr (.inl (by simp [ImportState.advance, here]))
      | some rows =>
          refine .inl ?_
          cases rows with
          | nil =>
              simp only [ImportState.advance, ImportState.select, polls, fetching, here, idle,
                maxActiveHeights]
              rcases excluded.eq_empty_or_nonempty with rfl | known
              · simp
              · simp [known.ne_empty.symm]
          | cons row rows =>
              simp [ImportState.advance, ImportState.select, polls, fetching, here,
                maxActiveHeights]
  | ended => exact .inr (.inr (by simp [ImportState.advance, polls, here, fetching, batch]))
  | broken =>
      rcases flow.broken here with member | ⟨result, member, _⟩
      · rw [fetching] at member
        cases member
      · rw [results] at member
        cases Multiset.notMem_zero _ member

/-- An import goes on until it fails or ends, and waits for the blocks only between passes. -/
theorem Imports.enabled (imports : Imports state) (sound : state.failed = false)
    (running : state.ended = false) :
    ∃ action, (state.step action).isSome ∧ (action.isBlocks → state.writer = .finished) := by
  have goes (action : ImportAction) (own : action.isBlocks = false)
      (enabled : (state.advance action).isSome) :
      ∃ action, (state.step action).isSome ∧ (action.isBlocks → state.writer = .finished) :=
    ⟨action, by simpa [ImportState.step, sound, running] using enabled, by simp [own]⟩
  by_cases finished : state.writer = .finished
  · by_cases unseen : state.unseen
    · exact goes .restart rfl (by simp [ImportState.advance, finished, unseen])
    · by_cases closed : state.closed
      · exact goes .finish rfl (by simp [ImportState.advance, finished, unseen, closed])
      · by_cases announcing : state.announcing
        · exact ⟨.announce, by simp [ImportState.step, ImportState.advance, sound, running,
            announcing], fun _ => finished⟩
        · exact ⟨.close, by simp [ImportState.step, ImportState.advance, sound, running,
            announcing, closed], fun _ => finished⟩
  · by_cases receiving : state.writer = .receiving
    · cases channel : state.channel with
      | cons batch channel =>
          exact goes .receive rfl (by simp [ImportState.advance, receiving, channel])
      | nil =>
          by_cases producing : state.producing
          · cases sending : state.sending with
            | some batch =>
                exact goes .send rfl (by
                  simp [ImportState.advance, sending, producing, channel, transactionReadyBatches])
            | none =>
                cases batch : state.batch with
                | cons result batch =>
                    exact goes .cut rfl (by simp [ImportState.advance, producing, sending, batch])
                | nil =>
                    have polls : state.polls = true :=
                      ImportState.polls_iff.mpr ⟨producing, sending, by rw [batch]; decide⟩
                    cases fetching : state.fetching with
                    | cons job fetching =>
                        exact goes (.fetch 0 none) rfl (by
                          simp [ImportState.advance, fetching, polls])
                    | nil =>
                        rcases imports.selects receiving channel polls batch fetching with
                          selects | answers | drains
                        · exact goes .select rfl selects
                        · exact goes .answer rfl answers
                        · exact goes .drain rfl drains
          · exact goes .receive rfl (by simp [ImportState.advance, receiving, channel, producing])
    · rcases ImportState.advance_of_writer receiving finished with writes | records
      · exact goes .write rfl writes
      · exact goes (.record true) rfl records

end

section

variable {state after : ImportState}

namespace ImportState

@[simp] theorem selected_notify (state : ImportState) :
    state.notify.selected = state.selected := by
  rcases state.notify_cases with ⟨_, same⟩ | ⟨_, same⟩ <;> rw [same]

@[simp] theorem failed_notify (state : ImportState) : state.notify.failed = state.failed := by
  rcases state.notify_cases with ⟨_, same⟩ | ⟨_, same⟩ <;> rw [same]

@[simp] theorem pending_notify (state : ImportState) : state.notify.pending = state.pending := by
  rcases state.notify_cases with ⟨_, same⟩ | ⟨_, same⟩ <;> rw [same]

@[simp] theorem complete_notify (state : ImportState) :
    state.notify.complete = state.complete := by
  rcases state.notify_cases with ⟨_, same⟩ | ⟨_, same⟩ <;> rw [same]

@[simp] theorem recorded_notify (state : ImportState) :
    state.notify.recorded = state.recorded := by
  rcases state.notify_cases with ⟨_, same⟩ | ⟨_, same⟩ <;> rw [same]

/-- The selection has ended, or a query that excluded no height has found no pending row. -/
def Settled (state : ImportState) : Prop :=
  state.selection = .ended ∨ state.selection = .querying ∅ (some [])

theorem settled_notify : state.notify.Settled ↔ state.Settled := by
  rcases state.notify_cases with ⟨waiting, same⟩ | ⟨_, same⟩
  · simp [same, Settled, waiting]
  · rw [same]
    rfl

theorem settled_release : state.release.Settled ↔ state.Settled := by
  rw [release, settled_notify]
  rfl

end ImportState

/-- What a step does to the database and to the list of jobs, unless it fails.  Only the answer of a
query settles a selection. -/
structure Effect (state after : ImportState) (action : ImportAction) : Prop where
  failed : after.failed = state.failed
  selected : after.selected = state.selected ∨
    ∃ job ∈ state.queued, after.selected = state.selected ++ [job]
  stored : (after.pending = state.pending ∧ after.complete = state.complete ∧
      after.recorded = state.recorded) ∨
    (after.pending = state.recordObjects.pending ∧ after.complete = state.recordObjects.complete ∧
      after.recorded = state.recordObjects.recorded) ∨
    ∃ height ids, action = .add height ids ∧
      after = { state with announcing := true }.recordBlockMetadata height ids
  settles : action ≠ .answer → after.Settled → state.Settled

/-- A step that leaves the database and the list of jobs alone. -/
theorem Effect.quiet {action : ImportAction} (failed : after.failed = state.failed)
    (selected : after.selected = state.selected) (pending : after.pending = state.pending)
    (complete : after.complete = state.complete) (recorded : after.recorded = state.recorded)
    (settles : action ≠ .answer → after.Settled → state.Settled) : Effect state after action :=
  ⟨failed, .inl selected, .inl ⟨pending, complete, recorded⟩, settles⟩

theorem ImportState.await_effect (state : ImportState) : Effect state state.await .select := by
  rw [await]
  split
  · exact .quiet rfl rfl rfl rfl rfl fun _ settled => by simp [Settled] at settled
  · exact .quiet rfl rfl rfl rfl rfl fun _ settled => by simp [Settled] at settled

theorem ImportState.select_effect (taken : state.select = some after) :
    Effect state after .select := by
  revert taken
  fun_cases ImportState.select state
  all_goals intro taken; cases taken
  case case2 ready _ job rest known =>
    refine ⟨rfl, .inr ⟨job, by simp [known], rfl⟩, .inl ⟨rfl, rfl, rfl⟩, fun _ settled => ?_⟩
    simp [Settled, ready] at settled
  case case6 empty _ => exact .quiet rfl rfl rfl rfl rfl fun _ _ => .inr empty
  all_goals first
    | exact state.await_effect
    | exact .quiet rfl rfl rfl rfl rfl fun _ settled => by simp [Settled] at settled

theorem ImportState.write_effect (taken : state.write = some after) :
    after = { state with failed := true } ∨ Effect state after .write := by
  revert taken
  fun_cases ImportState.write state
  all_goals intro taken; cases taken
  all_goals first
    | exact .inl rfl
    | exact .inr (.quiet rfl rfl rfl rfl rfl fun _ settled => settled)
    | exact .inr (.quiet (by simp [release]) (by simp [release]) (by simp [release])
        (by simp [release]) (by simp [release]) fun _ settled => (settled_release.mp settled :))
    | exact .inr (.quiet (by simp) (by simp) (by simp) (by simp) (by simp)
        fun _ settled => (settled_notify.mp settled :))

theorem ImportState.record_effect {succeeds : Bool} (taken : state.record succeeds = some after) :
    after = { state with failed := true } ∨ Effect state after (.record succeeds) := by
  revert taken
  fun_cases ImportState.record state succeeds
  all_goals intro taken; cases taken
  all_goals first
    | exact .inl rfl
    | exact .inr ⟨by simp [release, recordObjects], .inl (by simp [release, recordObjects]),
        .inr (.inl ⟨by simp [release], by simp [release], by simp [release]⟩),
        fun _ settled => (settled_release.mp settled :)⟩

theorem ImportState.advance_effect {action : ImportAction}
    (taken : state.advance action = some after) :
    after = { state with failed := true } ∨ Effect state after action := by
  cases action with
  | select =>
      simp only [advance] at taken
      split at taken
      · exact .inr (select_effect taken)
      · cases taken
  | write => exact write_effect taken
  | record succeeds => exact record_effect taken
  | add height ids =>
      simp only [advance] at taken
      split at taken
      · cases taken
      · obtain ⟨pending, moved, same⟩ := recordBlockMetadata_eq { state with announcing := true }
          height ids
        cases taken
        refine .inr ⟨by rw [same], .inl (by rw [same]), .inr (.inr ⟨height, ids, rfl, rfl⟩),
          fun _ settled => ?_⟩
        rw [same] at settled
        exact settled
  | answer =>
      simp only [advance] at taken
      split at taken
      · cases taken
        exact .inr (.quiet rfl rfl rfl rfl rfl fun other => absurd rfl other)
      · cases taken
  | _ =>
      revert taken
      simp only [advance]
      repeat' split
      all_goals intro taken; cases taken
      all_goals first
        | exact .inr (.quiet rfl rfl rfl rfl rfl fun _ settled => settled)
        | exact .inr (.quiet rfl rfl rfl rfl rfl fun _ settled => by simp [Settled, pass] at settled)

end

/-- Whether the database holds a transaction, with its metadata or without. -/
def ImportState.Knows (state : ImportState) (id : TransactionId) : Prop :=
  id ∈ state.complete ∨ id ∈ state.pending.map PendingRow.id

section

variable {state after : ImportState}

theorem ImportState.knows_place {height : Nat} {transaction : TransactionId × Nat}
    {id : TransactionId} (known : state.Knows id ∨ id = transaction.1) :
    (state.place height transaction).Knows id := by
  rw [place]
  split
  · next complete =>
    rcases known with known | rfl
    · exact known
    · exact .inl complete
  · split
    · rcases known with known | rfl
      · exact known.imp_right fun pending => by
          rw [List.map_append]
          exact List.mem_append_left _ pending
      · exact .inr (by simp)
    · next row found =>
      have held : transaction.1 ∈ state.pending.map PendingRow.id := by
        have same := List.find?_some found
        exact List.mem_map.mpr ⟨row, List.mem_of_find?_eq_some found, by simpa using same⟩
      have stays : state.Knows id := known.elim (fun known => known) fun same => .inr (same ▸ held)
      split
      · exact stays.imp_right fun pending => by rwa [PendingRow.ids_replace]
      · exact stays

theorem ImportState.knows_recordBlockMetadata {height : Nat} {ids : List TransactionId}
    {id : TransactionId} (known : state.Knows id ∨ id ∈ ids) :
    (state.recordBlockMetadata height ids).Knows id := by
  have placed : state.Knows id ∨ id ∈ ids.zipIdx.map Prod.fst := by
    simpa [List.zipIdx_map_fst] using known
  rw [recordBlockMetadata]
  generalize ids.zipIdx = transactions at placed
  clear known
  induction transactions generalizing state with
  | nil => simpa using placed
  | cons transaction transactions induction =>
      rw [List.foldl_cons]
      rw [List.map_cons, List.mem_cons, ← or_assoc] at placed
      exact induction (placed.imp_left knows_place)

theorem Effect.knows {action : ImportAction} (effect : Effect state after action)
    {id : TransactionId} (known : state.Knows id) : after.Knows id := by
  rcases effect.stored with ⟨pending, complete, _⟩ | ⟨pending, complete, _⟩ | ⟨height, ids, _, rfl⟩
  · rwa [ImportState.Knows, pending, complete]
  · rw [ImportState.Knows, pending, complete]
    simp only [ImportState.recordObjects, Finset.mem_union, List.mem_toFinset]
    by_cases recorded : id ∈ state.objects.map Prod.fst
    · exact .inl (.inr recorded)
    · refine known.imp .inl fun pending => ?_
      obtain ⟨row, member, rfl⟩ := List.mem_map.mp pending
      exact List.mem_map_of_mem (List.mem_filter.mpr ⟨member, by simpa using recorded⟩)
  · exact ImportState.knows_recordBlockMetadata (.inl known)

/-- The import itself completes what is complete at its end and was not at its start. -/
theorem Effect.complete {action : ImportAction} (effect : Effect state after action)
    {complete : Finset TransactionId}
    (covered : ∀ id ∈ state.complete, id ∈ complete ∨ id ∈ state.recorded) :
    ∀ id ∈ after.complete, id ∈ complete ∨ id ∈ after.recorded := by
  rcases effect.stored with ⟨_, same, recorded⟩ | ⟨_, same, recorded⟩ | ⟨height, ids, _, rfl⟩
  · rwa [same, recorded]
  · rw [same, recorded]
    intro id member
    simp only [ImportState.recordObjects, Finset.mem_union, List.mem_toFinset] at member ⊢
    rcases member with old | new
    · exact (covered id old).imp_right (List.mem_append_left _)
    · exact .inr (List.mem_append_right _ new)
  · obtain ⟨pending, moved, same⟩ := recordBlockMetadata_eq { state with announcing := true }
      height ids
    rwa [same]

end

/-- The steps of an import. -/
def importStep (before : ImportState) (action : ImportAction) (after : ImportState) : Prop :=
  before.step action = some after

section

variable {state after : ImportState} {actions : List ImportAction}

theorem effect_of_step {action : ImportAction} (taken : importStep state action after) :
    after = { state with failed := true } ∨ Effect state after action :=
  ImportState.advance_effect (ImportState.step_eq_some.mp taken).2.2

/-- What a database holds at the start of a run or a block adds in it, it holds at the end. -/
theorem knows_of_run (run : Run importStep state actions after) {id : TransactionId}
    (known : state.Knows id ∨ ∃ height ids, .add height ids ∈ actions ∧ id ∈ ids) :
    after.Knows id := by
  induction run with
  | stop => simpa using known
  | @next before middle after action actions taken _ induction =>
      have keeps (known : before.Knows id) : middle.Knows id := by
        rcases effect_of_step taken with rfl | effect
        · exact known
        · exact effect.knows known
      rcases known with known | ⟨height, ids, member, inIds⟩
      · exact induction (.inl (keeps known))
      · rcases List.mem_cons.mp member with rfl | later
        · refine induction (.inl ?_)
          obtain ⟨_, _, added⟩ := ImportState.step_eq_some.mp taken
          simp only [ImportState.advance] at added
          split at added
          · cases added
          · cases added
            exact ImportState.knows_recordBlockMetadata (.inr inIds)
        · exact induction (.inr ⟨height, ids, later, inIds⟩)

theorem complete_of_run (run : Run importStep state actions after)
    {complete : Finset TransactionId}
    (covered : ∀ id ∈ state.complete, id ∈ complete ∨ id ∈ state.recorded) :
    ∀ id ∈ after.complete, id ∈ complete ∨ id ∈ after.recorded := by
  induction run with
  | stop => exact covered
  | next taken _ induction =>
      refine induction ?_
      rcases effect_of_step taken with rfl | effect
      · exact covered
      · exact effect.complete covered

/-- Just behind the last answered query of a run no row was pending. -/
def Drained (start : ImportState) (actions : List ImportAction) (state : ImportState) : Prop :=
  ∃ earlier later middle, actions = earlier ++ .answer :: later ∧ .answer ∉ later ∧
    Run importStep start (earlier ++ [.answer]) middle ∧ middle.pending = [] ∧
      Run importStep middle later state

/-- A selection settles behind a query that leaves no row pending, and stays so up to the next one. -/
theorem drained_of_settled {start : ImportState} (run : Run importStep start actions state)
    (unsettled : ¬ start.Settled) (settled : state.Settled) : Drained start actions state := by
  refine run.history (fun actions state => state.Settled → Drained start actions state) ?_ ?_ settled
  · intro actions before action after front earlier taken settled
    obtain ⟨_, _, advanced⟩ := ImportState.step_eq_some.mp taken
    by_cases asked : action = .answer
    · subst asked
      refine ⟨actions, [], after, rfl, List.not_mem_nil, front.append (.single taken), ?_,
        .stop after⟩
      simp only [ImportState.advance] at advanced
      split at advanced
      · next excluded _ =>
        cases advanced
        obtain ⟨rfl, empty⟩ : excluded = ∅ ∧
            before.pendingTransactions metadataBatchSize excluded = [] := by
          simpa [ImportState.Settled] using settled
        refine List.eq_nil_iff_forall_not_mem.mpr fun row member => ?_
        simpa using Ledger.excluded_of_pendingTransactions (by decide) empty row member
      · cases advanced
    · have unanswered : before.Settled := by
        rcases effect_of_step taken with rfl | effect
        · exact settled
        · exact effect.settles asked settled
      obtain ⟨first, later, middle, rfl, none, answered, drained, rest⟩ := earlier unanswered
      refine ⟨first, later ++ [action], middle, by simp, ?_, answered, drained,
        rest.append (.single taken)⟩
      rw [List.mem_append, List.mem_singleton]
      rintro (member | rfl)
      · exact none member
      · exact asked rfl
  · intro settled
    exact absurd settled unsettled

/-- A row that a block places was there or is one of the block's. -/
theorem ImportState.mem_place {height : Nat} {transaction : TransactionId × Nat} {row : PendingRow}
    (member : row ∈ (state.place height transaction).pending) :
    row ∈ state.pending ∨ row.height = height ∧ row.id = transaction.1 := by
  rw [place] at member
  split at member
  · exact .inl member
  · split at member
    · rcases List.mem_append.mp member with old | new
      · exact .inl old
      · obtain rfl := List.mem_singleton.mp new
        exact .inr ⟨rfl, rfl⟩
    · split at member
      · obtain ⟨other, inside, rfl⟩ := List.mem_map.mp member
        split
        · exact .inr ⟨rfl, rfl⟩
        · exact .inl inside
      · exact .inl member

theorem ImportState.mem_recordBlockMetadata {height : Nat} {ids : List TransactionId}
    {row : PendingRow} (member : row ∈ (state.recordBlockMetadata height ids).pending) :
    row ∈ state.pending ∨ row.height = height ∧ row.id ∈ ids := by
  have placed : row ∈ state.pending ∨ row.height = height ∧ row.id ∈ ids.zipIdx.map Prod.fst := by
    rw [recordBlockMetadata] at member
    generalize ids.zipIdx = transactions at member
    induction transactions generalizing state with
    | nil => exact .inl member
    | cons transaction transactions induction =>
        rcases induction member with there | ⟨same, later⟩
        · rcases mem_place there with old | ⟨same, first⟩
          · exact .inl old
          · exact .inr ⟨same, List.mem_cons.mpr (.inl first)⟩
        · exact .inr ⟨same, List.mem_cons_of_mem _ later⟩
  simpa [List.zipIdx_map_fst] using placed

/-- A row that is pending behind a run was so before, or a block of the run has added it. -/
theorem added_of_run (run : Run importStep state actions after) {row : PendingRow}
    (member : row ∈ after.pending) :
    row ∈ state.pending ∨ ∃ ids, .add row.height ids ∈ actions ∧ row.id ∈ ids := by
  induction run with
  | stop => exact .inl member
  | @next before middle after action actions taken _ induction =>
      rcases induction member with there | ⟨ids, later, inIds⟩
      · rcases effect_of_step taken with rfl | effect
        · exact .inl there
        · rcases effect.stored with ⟨pending, _⟩ | ⟨pending, _⟩ | ⟨height, ids, rfl, rfl⟩
          · exact .inl (pending ▸ there)
          · rw [pending] at there
            exact .inl (List.mem_filter.mp there).1
          · rcases ImportState.mem_recordBlockMetadata there with old | ⟨rfl, inIds⟩
            · exact .inl old
            · exact .inr ⟨ids, List.mem_cons_self, inIds⟩
      · exact .inr ⟨ids, List.mem_cons_of_mem _ later, inIds⟩

/-- While the import runs, at most 32 heights are active, and a height is inactive only when all
that was selected at it has been recorded.  A step selects only inactive heights, and a step that
fails leaves the database and the active heights as they are, with all that it was to record
pending.  No transaction is recorded twice as long as no block moves a pending one.  The selection
ends only when no height is active; behind its last answered query no row was pending, so that every
row that is pending was added since, and has an announcement that another pass follows.  When all of
it ends, all transactions have been recorded; until then the import goes on, and waits for the
blocks only between its passes. -/
theorem transaction_import {pending : List PendingRow} {complete : Finset TransactionId}
    (unique : (pending.map PendingRow.id).Nodup) (incomplete : ∀ row ∈ pending, row.id ∉ complete)
    (run : Run importStep (ImportState.start pending complete) actions state) :
    state.active.card ≤ maxActiveHeights ∧
      (∀ job ∈ state.selected, job.height ∉ state.active →
        ∀ id ∈ job.ids, id ∈ state.recorded) ∧
      (state.moved = false → state.recorded.Nodup) ∧
      (state.selection = .ended →
        state.active = ∅ ∧ (state.pending ≠ [] → state.announcing ∨ state.unseen) ∧
          ∃ earlier later middle, actions = earlier ++ .answer :: later ∧ .answer ∉ later ∧
            Run importStep (ImportState.start pending complete) (earlier ++ [.answer]) middle ∧
            middle.pending = [] ∧ Run importStep middle later state ∧
            ∀ row ∈ state.pending, ∃ ids, .add row.height ids ∈ later ∧ row.id ∈ ids) ∧
      (state.ended → state.pending = [] ∧
        ∀ id, (id ∈ pending.map PendingRow.id ∨
            ∃ height ids, .add height ids ∈ actions ∧ id ∈ ids) →
          id ∈ complete ∨ id ∈ state.recorded) ∧
      (∀ action after, importStep state action after →
        (after.selected = state.selected ∨
          ∃ job, after.selected = state.selected ++ [job] ∧ job.height ∉ state.active) ∧
        (after.failed → after = { state with failed := true } ∧
          ∀ entry ∈ state.objects, entry.2 ∈ state.active ∧
            (state.moved = false → ∃ row ∈ state.pending,
              row.id = entry.1 ∧ row.height = entry.2))) ∧
      (state.failed = false → state.ended = false → ∃ action,
        (state.step action).isSome ∧ (action.isBlocks → state.writer = .finished)) := by
  have imports : Imports state :=
    run.invariant (fun _ _ _ imports taken => imports.step taken) (.start unique incomplete)
  have ⟨ledger, flow⟩ := imports
  refine ⟨ledger.few, ?_, fun still => (ledger.exact still).recorded,
    fun ended => ⟨ledger.idle ended, ledger.caughtUp (.inl ended), ?_⟩, ?_, ?_, imports.enabled⟩
  · intro job member inactive id inJob
    rcases ledger.logged job member id inJob with recorded | inHand
    · exact recorded
    · exact absurd (ledger.active_of_outstanding inHand) inactive
  · obtain ⟨earlier, later, middle, split, last, answered, drained, rest⟩ :=
      drained_of_settled run (by simp [ImportState.Settled, ImportState.start]) (.inl ended)
    refine ⟨earlier, later, middle, split, last, answered, drained, rest, fun row member => ?_⟩
    refine (added_of_run rest member).resolve_left ?_
    rw [drained]
    exact List.not_mem_nil
  · intro ended
    refine ⟨flow.concluded ended, fun id known => ?_⟩
    have kept : state.Knows id := knows_of_run run (known.imp_left .inr)
    rw [ImportState.Knows, flow.concluded ended] at kept
    exact complete_of_run run (fun id member => .inl member) id (kept.resolve_right (by simp))
  · intro action after taken
    have sound := (ImportState.step_eq_some.mp taken).1
    rcases effect_of_step taken with rfl | effect
    · refine ⟨.inl rfl, fun _ => ⟨rfl, fun entry member => ⟨ledger.collected entry member,
        fun still => (ledger.exact still).pending entry ?_⟩⟩⟩
      exact Multiset.mem_add.mpr (.inr (by simpa using member))
    · refine ⟨effect.selected.imp_right ?_, fun failed => ?_⟩
      · rintro ⟨job, queued, same⟩
        exact ⟨job, same, ledger.queued.2 job queued⟩
      · rw [effect.failed, sound] at failed
        cases failed

end

/-- The identifier of a transaction in the examples. -/
def sampleImportId : TransactionId := ⟨List.replicate 32 1, List.length_replicate⟩

/-- A block is added between the answer of the last query and its arrival. -/
def lateBlock : List ImportAction :=
  [.select, .answer, .add 5 [sampleImportId], .select]

/-- A block gives a transaction that is being fetched an earlier place. -/
def movedTransaction : List ImportAction :=
  [.select, .answer, .select, .select, .add 3 [sampleImportId], .select, .answer, .select,
    .select, .fetch 0 (some [sampleImportId]), .fetch 0 (some [sampleImportId]), .cut, .send,
    .receive, .write, .write, .write, .write, .write, .write, .write, .record true]

/-- The selection may end with a row pending, and a transaction may be recorded twice. -/
theorem late_block_and_moved_transaction :
    (∃ state, Run importStep (.start [] ∅) lateBlock state ∧
      state.selection = .ended ∧ state.pending ≠ []) ∧
    ∃ state, Run importStep (.start [⟨sampleImportId, 5, 0⟩] ∅) movedTransaction state ∧
      ¬ state.recorded.Nodup :=
  ⟨Run.exists_of_foldlM (fun state : ImportState => state.selection = .ended ∧ state.pending ≠ [])
      (by decide),
    Run.exists_of_foldlM (fun state : ImportState => ¬ state.recorded.Nodup) (by decide)⟩

/-- An import of one transaction from its selection to its end. -/
def singleTransaction : List ImportAction :=
  [.select, .answer, .select, .select, .fetch 0 (some [sampleImportId]), .cut, .send, .receive,
    .write, .write, .write, .write, .record true, .select, .answer, .select, .drain, .receive,
    .close, .finish]

theorem transaction_import_sample :
    ∃ state, Run importStep (.start [⟨sampleImportId, 5, 0⟩] ∅) singleTransaction state ∧
      state.ended ∧ state.pending = [] ∧ sampleImportId ∈ state.recorded := by
  obtain ⟨state, run, ended⟩ : ∃ state,
      Run importStep (.start [⟨sampleImportId, 5, 0⟩] ∅) singleTransaction state ∧ state.ended :=
    Run.exists_of_foldlM (fun state : ImportState => state.ended = true) (by decide)
  have imported := (transaction_import (by simp) (by simp) run).2.2.2.2.1 ended
  exact ⟨state, run, ended, imported.1,
    (imported.2 sampleImportId (.inl (by simp))).resolve_left (by simp)⟩

end ArIoGateway
