import ArIoGateway.Foundation.Octets
import ArIoGateway.Foundation.Runs
import Mathlib.Data.Finset.Basic
import Mathlib.Data.List.Dedup
import Mathlib.Data.List.Sort

/-!
# The import of transaction metadata

Blocks add rows of transactions whose metadata is missing.  A pipeline selects the rows height by
height, fetches several heights at once, queues what has been verified and records it in batches;
a height is active from its selection until all that was selected for it has been recorded.
-/

namespace ArIoGateway

/-- The identifier of a transaction. -/
abbrev TransactionId := FixedBytes 32

/-- A transaction without metadata, at its first place on the chain. -/
structure PendingRow where
  id : TransactionId
  height : Nat
  position : Nat
deriving DecidableEq

namespace PendingRow

/-- The order in which rows are selected. -/
def before (left right : PendingRow) : Prop :=
  left.height < right.height ∨ left.height = right.height ∧ left.position ≤ right.position

instance : DecidableRel before := fun left right => by
  unfold before
  infer_instance

end PendingRow

/-- The transactions selected at a height. -/
structure TransactionJob where
  height : Nat
  ids : List TransactionId
deriving DecidableEq

/-- The result of a fetch: the job, where there was one, and the transactions verified for it,
unless the fetch failed. -/
structure FetchResult where
  job : Option TransactionJob
  verified : Option (List TransactionId)
deriving DecidableEq

/-- How many heights may be active, and how many objects one statement records. -/
def maxActiveHeights : Nat := 32

def metadataBatchSize : Nat := 256

def readyChunk : Nat := 32

def transactionReadyBatches : Nat := 32

/-- Where the selection of jobs waits: to be polled, for a commit and whether there has been one,
or for the answer of a query.  It ends by itself or with a failed query. -/
inductive SelectionPhase where
  | ready
  | waiting (woken : Bool)
  | querying (excluded : Finset Nat) (answer : Option (List PendingRow))
  | ended
  | broken
deriving DecidableEq

/-- Where the writer stands: between batches, between the results of a batch, in front of the
identifiers of a job that it has not pushed yet, or in a statement. -/
inductive WriterPhase where
  | receiving
  | taking (results : List FetchResult)
  | pushing (results : List FetchResult) (height : Nat)
      (ids verified : List TransactionId)
  | flushing (results : List FetchResult) (height : Nat)
      (ids verified : List TransactionId)
  | flushingLast
  | finished
deriving DecidableEq

/-- The import: what the database holds, the selection, the jobs that are fetched and queued, the
writer, and what the blocks have announced.  A query that failed is fetched as `none`.  An object to
record comes with the height that it was selected for. -/
structure ImportState where
  pending : List PendingRow
  complete : Finset TransactionId
  /-- What the import has recorded, in order. -/
  recorded : List TransactionId
  /-- Whether a block gave a pending transaction an earlier place. -/
  moved : Bool
  /-- The jobs that the import has selected, in order. -/
  selected : List TransactionJob
  active : Finset Nat
  queued : List TransactionJob
  selection : SelectionPhase
  permit : Bool
  fetching : List (Option TransactionJob)
  batch : List FetchResult
  sending : Option (List FetchResult)
  channel : List (List FetchResult)
  producing : Bool
  writer : WriterPhase
  objects : List (TransactionId × Nat)
  completed : List Nat
  failed : Bool
  announcing : Bool
  unseen : Bool
  closed : Bool
  ended : Bool
deriving DecidableEq

/-- What can happen next. -/
inductive ImportAction where
  /-- The selection is polled. -/
  | select
  /-- The database answers the query for pending rows. -/
  | answer
  /-- The query for pending rows fails. -/
  | refuse
  /-- A fetch ends, with the transactions that it verified. -/
  | fetch (place : Nat) (verified : Option (List TransactionId))
  /-- The results that are ready make a batch. -/
  | cut
  | send
  /-- The queue ends after the last result. -/
  | drain
  | receive
  /-- The writer goes on without the database. -/
  | write
  /-- The statement of the writer ends. -/
  | record (succeeds : Bool)
  /-- A block adds its transactions, is announced, and is the last one. -/
  | add (height : Nat) (ids : List TransactionId)
  | announce
  | close
  /-- A pass over the pending rows follows another one, or the import ends. -/
  | restart
  | finish
deriving DecidableEq

/-- Whether an action belongs to the import of the blocks. -/
def ImportAction.isBlocks : ImportAction → Bool
  | .add _ _ | .announce | .close => true
  | _ => false

namespace ImportState

/-- The first pending rows at heights that are not excluded. -/
def pendingTransactions (state : ImportState) (limit : Nat) (excluded : Finset Nat) :
    List PendingRow :=
  ((state.pending.filter fun row => row.height ∉ excluded).insertionSort PendingRow.before).take
    limit

/-- Place a transaction of a block: a new one becomes pending, a pending one keeps its earlier
place. -/
def place (state : ImportState) (height : Nat) (transaction : TransactionId × Nat) : ImportState :=
  if transaction.1 ∈ state.complete then state
  else
    match state.pending.find? fun row => row.id = transaction.1 with
    | none =>
        { state with pending := state.pending ++ [⟨transaction.1, height, transaction.2⟩] }
    | some row =>
        if height < row.height ∨ height = row.height ∧ transaction.2 < row.position then
          { state with
            pending := state.pending.map fun other =>
              if other.id = transaction.1 then ⟨transaction.1, height, transaction.2⟩ else other
            moved := true }
        else state

/-- Record the members of a block. -/
def recordBlockMetadata (state : ImportState) (height : Nat) (ids : List TransactionId) :
    ImportState :=
  ids.zipIdx.foldl (fun state transaction => state.place height transaction) state

/-- Record the objects that the writer has collected. -/
def recordObjects (state : ImportState) : ImportState :=
  let ids := state.objects.map Prod.fst
  { state with
    pending := state.pending.filter fun row => row.id ∉ ids
    complete := state.complete ∪ ids.toFinset
    recorded := state.recorded ++ ids
    objects := [] }

/-- Wait for a commit, or take the permit of an earlier one. -/
def await (state : ImportState) : ImportState :=
  if state.permit then { state with permit := false, selection := .ready }
  else { state with selection := .waiting false }

/-- Wake the selection, or leave a permit for it. -/
def notify (state : ImportState) : ImportState :=
  match state.selection with
  | .waiting false => { state with selection := .waiting true }
  | _ => { state with permit := true }

/-- The rows of each height, in the order of heights. -/
def groups (rows : List PendingRow) : List TransactionJob :=
  ((rows.map PendingRow.height).dedup.insertionSort (· ≤ ·)).map fun height =>
    ⟨height, (rows.filter fun row => row.height = height).map PendingRow.id⟩

/-- Poll `pending_transaction_jobs` up to its next wait or job. -/
def select (state : ImportState) : Option ImportState :=
  match state.selection with
  | .ready =>
      if state.active.card = maxActiveHeights then some state.await
      else
        match state.queued with
        | job :: queued =>
            some
              { state with
                active := insert job.height state.active
                queued
                selected := state.selected ++ [job]
                fetching := state.fetching ++ [some job] }
        | [] => some { state with selection := .querying state.active none }
  | .waiting true => some { state with selection := .ready }
  | .querying excluded (some []) =>
      -- A commit during the query may have made an excluded block eligible again.
      if state.active ≠ excluded then some { state with selection := .ready }
      else if excluded = ∅ then some { state with selection := .ended }
      else some state.await
  | .querying _ (some rows) =>
      some { state with queued := groups rows, selection := .ready }
  | _ => none

/-- Release the heights that are complete. -/
def release (state : ImportState) : ImportState :=
  { state with
    active := state.active \ state.completed.toFinset
    completed := [] }.notify

/-- Take the writer to its next wait or its next identifier. -/
def write (state : ImportState) : Option ImportState :=
  match state.writer with
  | .taking [] =>
      if state.objects = [] then some { state with writer := .receiving }.release
      else some { state with writer := .flushingLast }
  | .taking (⟨some job, some verified⟩ :: results) =>
      some { state with writer := .pushing results job.height job.ids verified }
  | .taking (_ :: _) => some { state with failed := true }
  | .pushing results height (id :: ids) verified =>
      if id ∈ verified then
        let objects := state.objects ++ [(id, height)]
        some
          { state with
            objects
            writer :=
              if objects.length = metadataBatchSize then
                .flushing results height ids (verified.erase id)
              else .pushing results height ids (verified.erase id) }
      else some { state with failed := true }
  | .pushing results height [] _ =>
      if state.objects = [] then
        some { state with active := state.active.erase height, writer := .taking results }.notify
      else
        some
          { state with
            completed := state.completed ++ [height]
            writer := .taking results }
  | _ => none

/-- End the statement of the writer. -/
def record (state : ImportState) (succeeds : Bool) : Option ImportState :=
  match state.writer with
  | .flushing results height ids verified =>
      if succeeds then
        some
          { state.recordObjects with writer := .pushing results height ids verified }.release
      else some { state with failed := true }
  | .flushingLast =>
      if succeeds then some { state.recordObjects with writer := .receiving }.release
      else some { state with failed := true }
  | _ => none

/-- Begin a pass over the pending rows. -/
def pass (state : ImportState) : ImportState :=
  { state with
    active := ∅
    queued := []
    selection := .ready
    permit := false
    fetching := []
    batch := []
    sending := none
    channel := []
    producing := true
    writer := .receiving
    objects := []
    completed := []
    unseen := false }

/-- The import of the rows that a database holds. -/
def start (pending : List PendingRow) (complete : Finset TransactionId) : ImportState where
  pending := pending
  complete := complete
  recorded := []
  moved := false
  selected := []
  active := ∅
  queued := []
  selection := .ready
  permit := false
  fetching := []
  batch := []
  sending := none
  channel := []
  producing := true
  writer := .receiving
  objects := []
  completed := []
  failed := false
  announcing := false
  unseen := false
  closed := false
  ended := false

/-- Whether the results that are ready are polled. -/
def polls (state : ImportState) : Bool :=
  state.producing && state.sending.isNone && decide (state.batch.length < readyChunk)

/-- One step of an import that has neither failed nor ended. -/
def advance (state : ImportState) : ImportAction → Option ImportState
  | .select =>
      if state.polls ∧ state.fetching.length < maxActiveHeights then state.select else none
  | .answer =>
      match state.selection with
      | .querying excluded none =>
          some
            { state with
              selection := .querying excluded
                (some (state.pendingTransactions metadataBatchSize excluded)) }
      | _ => none
  | .refuse =>
      match state.selection with
      | .querying _ none =>
          if state.polls ∧ state.fetching.length < maxActiveHeights then
            some { state with selection := .broken, fetching := state.fetching ++ [none] }
          else none
      | _ => none
  | .fetch place verified =>
      match state.fetching[place]? with
      | some job =>
          if state.polls then
            some
              { state with
                fetching := state.fetching.eraseIdx place
                batch := state.batch ++ [⟨job, if job.isSome then verified else none⟩] }
          else none
      | none => none
  | .cut =>
      if state.producing ∧ state.sending = none ∧ state.batch ≠ [] then
        some { state with sending := some state.batch, batch := [] }
      else none
  | .send =>
      match state.sending with
      | some batch =>
          if state.producing ∧ state.channel.length < transactionReadyBatches then
            some
              { state with
                sending := none
                channel := state.channel ++ [batch]
                producing := batch.all fun result => result.verified.isSome }
          else none
      | none => none
  | .drain =>
      if state.polls ∧ state.selection = .ended ∧ state.fetching = [] ∧ state.batch = [] then
        some { state with producing := false }
      else none
  | .receive =>
      match state.writer, state.channel with
      | .receiving, batch :: channel =>
          some { state with writer := .taking batch, channel }
      | .receiving, [] =>
          if state.producing then none else some { state with writer := .finished }
      | _, _ => none
  | .write => state.write
  | .record succeeds => state.record succeeds
  | .add height ids =>
      if state.announcing ∨ state.closed then none
      else some ({ state with announcing := true }.recordBlockMetadata height ids)
  | .announce =>
      if state.announcing then some { state with announcing := false, unseen := true } else none
  | .close =>
      if state.announcing ∨ state.closed then none else some { state with closed := true }
  | .restart => if state.writer = .finished ∧ state.unseen then some state.pass else none
  | .finish =>
      if state.writer = .finished ∧ state.unseen = false ∧ state.closed then
        some { state with ended := true }
      else none

/-- One step of an import. -/
def step (state : ImportState) (action : ImportAction) : Option ImportState :=
  if state.failed ∨ state.ended then none else state.advance action

end ImportState

end ArIoGateway
