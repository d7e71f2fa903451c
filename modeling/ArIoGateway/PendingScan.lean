import ArIoGateway.QueryPlans
import ArIoGateway.BundleScan
import ArIoGateway.Foundation.Sweeps

/-!
# The scan for pending bundles

The bundle roots that are not indexed yet are found in pages.  A live scan goes up from a boundary
to the height that has its metadata, then a backfill scan goes down from the boundary.  A page has
a limit of rows and a span of heights, and a span without rows is passed with a made-up cursor.
-/

namespace ArIoGateway

open Octets Ranking

/-- A row of `block_transactions`. -/
structure BlockTransaction where
  blockHash : FixedBytes 48
  position : Fin (2 ^ 31)
  objectKey : Nat
deriving DecidableEq

/-- What the scan reads of a row of `objects`. -/
structure RootObject where
  key : Nat
  kind : Fin 2
  metadataComplete : Bool
  isBundle : Bool
  dataSize : Nat

/-- A row of `bundle_totals`. -/
structure BundleTotals where
  height : Fin (2 ^ 63)
  roots : Int
  completed : Int

/-- The row of `block_index_state`. -/
structure IndexedHeights where
  startHeight : Fin (2 ^ 63)
  importedThrough : Option (Fin (2 ^ 63))

/-- The tables that the scan reads, with the primary keys that it relies on. -/
structure BundleTables where
  state : Option IndexedHeights
  canonicalBlocks : List CanonicalBlock
  blocks : List GraphqlBlock
  transactions : List BlockTransaction
  objects : List RootObject
  placements : List GraphqlPlacement
  /-- The key of a root and whether it is complete. -/
  progress : List (Nat × Bool)
  totals : List BundleTotals
  heightsOnce : (canonicalBlocks.map CanonicalBlock.height).Nodup
  positionsOnce : (transactions.map fun row => (row.blockHash, row.position)).Nodup

namespace BundleCursor

def rank (cursor : BundleCursor) : Nat ×ₗ Nat ×ₗ Nat ×ₗ List Nat :=
  toLex (cursor.height, toLex (cursor.position, toLex (cursor.kind, cursor.id.map UInt8.toNat)))

theorem rank_injective : Function.Injective rank := by
  intro ⟨height, position, kind, id⟩ ⟨otherHeight, otherPosition, otherKind, otherId⟩ same
  obtain rfl : height = otherHeight := congrArg (fun rank => (ofLex rank).1) same
  obtain rfl : position = otherPosition := congrArg (fun rank => (ofLex (ofLex rank).2).1) same
  obtain rfl : kind = otherKind := congrArg (fun rank => (ofLex (ofLex (ofLex rank).2).2).1) same
  have ids : id.map UInt8.toNat = otherId.map UInt8.toNat :=
    congrArg (fun rank => (ofLex (ofLex (ofLex rank).2).2).2) same
  obtain rfl := List.map_injective_iff.mpr (fun _ _ => UInt8.toNat_inj.mp) ids
  rfl

/-- Cursors are compared field by field. -/
instance : LinearOrder BundleCursor := LinearOrder.lift' rank rank_injective

/-- The last position at a height. -/
def lastAt (height : Nat) : BundleCursor := ⟨height, maxPosition, 1, List.replicate 32 255⟩

/-- The first position at a height. -/
def firstAt (height : Nat) : BundleCursor := ⟨height, 0, 0, List.replicate 32 0⟩

end BundleCursor

/-- A row of the query: a root that is not indexed completely. -/
structure PendingRoot where
  id : FixedBytes 32
  height : Fin (2 ^ 63)
  position : Fin (2 ^ 31)
  dataSize : Nat
deriving DecidableEq

namespace PendingRoot

def cursor (root : PendingRoot) : BundleCursor :=
  ⟨root.height, root.position, 0, root.id.val⟩

/-- What a page has of a row. -/
def entry (root : PendingRoot) : FixedBytes 32 × Nat × Nat :=
  (root.id, root.height.val, root.dataSize)

end PendingRoot

structure BundlePage where
  roots : List (FixedBytes 32 × Nat × Nat)
  after : Option BundleCursor
  liveScannedHeight : Option Nat
deriving DecidableEq

/-- The limit of the rows of a block and of the rows of a page. -/
def bundlePageLimit : Nat := 64

def sqlHeight (height : Nat) : Checked Nat := do
  Checked.ensure (height < 2 ^ 63) "block height exceeds PostgreSQL bigint"
  return height

/-- `c.height >= $1`, or the other way in the reverse query. -/
def SortOrder.reaches (sort : SortOrder) (height cursor : Nat) : Bool :=
  match sort with
  | .heightAsc => cursor ≤ height
  | .heightDesc => height ≤ cursor

namespace BundleTables

variable (tables : BundleTables)

/-- The row for a transaction of a block: its object is a bundle transaction with metadata, it is
placed here, and it is not complete. -/
def rootAt (block : CanonicalBlock) (row : BlockTransaction) : Option PendingRoot := do
  let object ← tables.objects.find? fun object => object.key = row.objectKey ∧ object.kind = 0 ∧
    object.metadataComplete ∧ object.isBundle
  let placement ← tables.placements.find? fun placement =>
    placement.objectKey = row.objectKey ∧ placement.blockHeight = block.height ∧
      placement.position = row.position ∧ placement.kind = 0
  if tables.progress.any fun progress => progress.1 = row.objectKey ∧ progress.2 then none
  else some ⟨placement.id, block.height, row.position, object.dataSize⟩

def blockRoots (block : CanonicalBlock) : List PendingRoot :=
  (tables.transactions.filter fun row => row.blockHash = block.blockHash).filterMap
    (tables.rootAt block)

/-- Whether a canonical block has its metadata and a height that is imported. -/
def imported (block : CanonicalBlock) : Bool :=
  (tables.blocks.any fun row =>
    row.hash = block.blockHash ∧ row.height = block.height ∧ row.timestamp.isSome) &&
  tables.state.any fun state =>
    decide (state.startHeight < block.height) &&
      state.importedThrough.any fun through => block.height ≤ through

/-- Whether the totals of a height have more roots than completed ones. -/
def unfinished (block : CanonicalBlock) : Bool :=
  let rows := tables.totals.filter fun row => row.height = block.height
  (rows.map BundleTotals.completed).sum < (rows.map BundleTotals.roots).sum

/-- The rows behind a cursor with heights in a range. -/
def rootRows (sort : SortOrder) (after : Option BundleCursor)
    (range : Option (Nat × Nat)) : List PendingRoot :=
  top (sort.ordered fun root : PendingRoot => toLex (root.height, root.position)) bundlePageLimit
    ((tables.canonicalBlocks.filter fun block =>
      tables.imported block && tables.unfinished block &&
        (after.all fun cursor => sort.reaches block.height cursor.height) &&
        range.all fun bounds => bounds.1 ≤ block.height.val ∧ block.height.val ≤ bounds.2).flatMap
      fun block => top (sort.ordered PendingRoot.position) bundlePageLimit
        ((tables.blockRoots block).filter fun root =>
          after.all fun cursor => sort.comparison root.cursor cursor))

def pendingBundlesAfter (after : Option BundleCursor) (range : Option (Nat × Nat))
    (descending : Bool) : Checked BundlePage := do
  Checked.ensure (∀ cursor ∈ after, cursor.id.length = 32 ∧ (cursor.kind = 0 ∨ cursor.kind = 1))
    "invalid bundle scan cursor"
  Checked.ensure (∀ bounds ∈ range, bounds.1 ≤ bounds.2) "bundle range is reversed"
  let range ← range.mapM fun bounds => do
    let start ← sqlHeight bounds.1
    let finish ← sqlHeight bounds.2
    return (start, finish)
  let rows := tables.rootRows (if descending then .heightDesc else .heightAsc) after range
  return ⟨rows.map PendingRoot.entry, rows.getLast?.map PendingRoot.cursor, none⟩

/-- The span of heights of a page. -/
def scanSpan : Nat := 1000

/-- `i64::try_from`. -/
def toI64 (height : Nat) : Checked Nat := do
  Checked.ensure (height < 2 ^ 63) "out of range integral type conversion attempted"
  return height

/-- The height that the next live page begins with. -/
def liveFirst (low : Nat) : Option BundleCursor → Nat
  | some cursor => max cursor.height low
  | none => low

/-- The height that the next live page ends with. -/
def liveHigh (low metadata : Nat) (cursor : Option BundleCursor) : Nat :=
  min metadata (BundleEntry.saturatingAdd (liveFirst low cursor) (scanSpan - 1))

/-- The next page above the boundary. -/
def livePage (scan : BundleScan) (start metadata : Nat) : Checked BundlePage := do
  let low := max start (scan.boundary + 1)
  let high := liveHigh low metadata scan.live
  let live ← tables.pendingBundlesAfter scan.live (some (low, high)) false
  if live.after.isNone ∧ high < metadata then
    return { live with after := some (.lastAt (← toI64 high)) }
  else return live

/-- The height that the next backfill page begins with. -/
def backfillTop (finish : Nat) : Option BundleCursor → Nat
  | some cursor => min cursor.height finish
  | none => finish

/-- The height that the next backfill page ends with. -/
def backfillLow (start finish : Nat) (cursor : Option BundleCursor) : Nat :=
  max start (backfillTop finish cursor - (scanSpan - 1))

/-- The next page up to the boundary. -/
def backfillPage (scan : BundleScan) (start finish : Nat) : Checked BundlePage := do
  let low := backfillLow start finish scan.backfill
  let page ← tables.pendingBundlesAfter scan.backfill (some (low, finish)) true
  if page.after.isNone ∧ start < low then
    return { page with after := some (.firstAt (← toI64 low)) }
  else return page

/-- `pending_bundle_scan`, with the result of `metadata_height`. -/
def pendingBundleScan (metadataHeight : Option (Fin (2 ^ 63))) (scan : BundleScan) (start : Nat) :
    Checked (BundlePage × Bool) := do
  let boundary := scan.boundary
  let metadata := (metadataHeight.map Fin.val).getD 0
  let live ← if boundary < metadata ∧ start ≤ metadata then
      some <$> tables.livePage scan start metadata
    else pure none
  match live.bind BundlePage.after, live with
  | some after, some live =>
      return ({ live with liveScannedHeight := some after.height }, false)
  | _, _ =>
    let liveScannedHeight := live.map fun _ => metadata
    let finish := min boundary metadata
    if finish < start then return (⟨[], none, liveScannedHeight⟩, true)
    else
      let page ← tables.backfillPage scan start finish
      return ({ page with liveScannedHeight := liveScannedHeight }, true)

end BundleTables

/-- The cursors after the arrival of a page in `download_pending`. -/
def BundleScan.arrive (scan : BundleScan) (page : BundlePage) (backfill : Bool) : BundleScan :=
  if page.after.isSome then
    if backfill then { scan with backfill := page.after } else { scan with live := page.after }
  else { scan with live := none, backfill := none }

/-- The pages that arrive until the scan wraps, each with the half it is from, and the scan after
the wrap; nothing when the pages do not suffice. -/
def BundleTables.scanCycle (tables : BundleTables) (metadataHeight : Option (Fin (2 ^ 63)))
    (start : Nat) : Nat → BundleScan → Checked (Option (List (BundlePage × Bool) × BundleScan))
  | 0, _ => return none
  | pages + 1, scan => do
      let (page, backfill) ← tables.pendingBundleScan metadataHeight scan start
      let next := scan.arrive page backfill
      if page.after.isNone then return some ([], next)
      else
        let others ← tables.scanCycle metadataHeight start pages next
        return others.map fun others => ((page, backfill) :: others.1, others.2)

end ArIoGateway
