import ArIoGateway.BlockHeader
import ArIoGateway.MerklePath
import ArIoGateway.Objects
import Mathlib.Data.List.Sort
import Mathlib.Data.Prod.Lex
import Mathlib.Order.WithBot

/-!
# The data tree of a block

A block lays its transactions out in the order of their records, padded to whole chunks from fork
2.5 on, and commits to the layout by the root of a Merkle tree.  Three computations place a
transaction: the check that rebuilds the tree, the sum of the sizes in front of it and the check
of a path.  They agree.
-/

namespace ArIoGateway

open MerkleWalk Octets

def maxBlockTransactions : Nat := 1000

/-- The order of transaction records: the format first, where a missing one is least, then the raw
identifier. -/
def recordKey (format : Option Int) (id : Bytes) : WithBot Int ×ₗ List Nat :=
  toLex (format.elim ⊥ fun format => (format : WithBot Int), id.map UInt8.toNat)

/-- Sort by a key. -/
def sortByKey {α : Type} (key : α → WithBot Int ×ₗ List Nat) (values : List α) : List α :=
  values.insertionSort fun left right => key left ≤ key right

theorem sortByKey_perm {α : Type} (key : α → WithBot Int ×ₗ List Nat) (values : List α) :
    (sortByKey key values).Perm values :=
  List.perm_insertionSort _ values

theorem sortByKey_pairwise {α : Type} (key : α → WithBot Int ×ₗ List Nat) (values : List α) :
    (sortByKey key values).Pairwise fun left right => key left ≤ key right := by
  have total : Std.Total fun left right : α => key left ≤ key right :=
    ⟨fun left right => le_total (key left) (key right)⟩
  have transitive : IsTrans α fun left right => key left ≤ key right :=
    ⟨fun _ _ _ => le_trans⟩
  exact List.pairwise_insertionSort _ values

/-- The sorted form does not depend on the order in which the values are given. -/
theorem sortByKey_eq {α β : Type} {key : α → WithBot Int ×ₗ List Nat}
    {other : β → WithBot Int ×ₗ List Nat} {f : α → β} {values : List α} {rows : List β}
    (keys : ∀ value, other (f value) = key value) (distinct : (values.map key).Nodup)
    (perm : rows.Perm (values.map f)) : sortByKey other rows = (sortByKey key values).map f := by
  refine List.Perm.eq_of_pairwise ?_ (sortByKey_pairwise other rows) ?_ ?_
  · intro left right leftMember rightMember below above
    have same := le_antisymm below above
    obtain ⟨one, oneMember, rfl⟩ := List.mem_map.mp
      (perm.mem_iff.mp ((sortByKey_perm other rows).mem_iff.mp leftMember))
    obtain ⟨two, twoMember, rfl⟩ := List.mem_map.mp rightMember
    rw [keys, keys] at same
    rw [List.inj_on_of_nodup_map distinct oneMember
      ((sortByKey_perm key values).mem_iff.mp twoMember) same]
  · rw [List.pairwise_map]
    simpa only [keys] using sortByKey_pairwise key values
  · exact (sortByKey_perm other rows).trans
      (perm.trans ((sortByKey_perm key values).map f).symm)

/-- `checked_add` on `u128`. -/
def checkedAddU128 (left right : Nat) (message : String) : Checked Nat := do
  Checked.ensure (left + right < 2 ^ 128) message
  pure (left + right)

/-- Bytes from the end of a transaction to the next whole chunk. -/
def paddingSize (size : Nat) : Nat := (maxChunkSize - size % maxChunkSize) % maxChunkSize

/-- What the loop over the transactions of a block carries. -/
structure RowState where
  expectedIds : List (FixedBytes 32)
  genesis : Option Bytes
  row : List (FixedBytes 32 × Nat) := []
  finish : Nat := 0

/-- One transaction of the loop.  The records of the genesis block are only collected; `encode`
writes one record as JSON. -/
def placeObject (suite : HashSuite) (encode : ObjectMetadata → Bytes) (height : Nat)
    (state : RowState) (object : ObjectMetadata) : Checked RowState := do
  let id ← (toFixed 32 object.id).mapError fun _ => "invalid transaction ID"
  Checked.ensure (id ∈ state.expectedIds)
    "transaction does not match authenticated block membership"
  let expectedIds := state.expectedIds.erase id
  let root ← Checked.context object.dataRoot "missing transaction data root"
  match state.genesis with
  | some records => pure { state with expectedIds, genesis := some (records ++ encode object) }
  | none => do
      let finish ← checkedAddU128 state.finish object.dataSize "block data size overflow"
      let row := state.row ++ [(hashLeaf suite root (note finish).val, finish)]
      let padding := paddingSize object.dataSize
      if fork25Height ≤ height ∧ 0 < padding then do
        let padded ← checkedAddU128 finish padding "block padding overflow"
        pure { state with
          expectedIds, finish := padded
          row := row ++ [(hashLeaf suite [] (note padded).val, padded)] }
      else pure { state with expectedIds, row, finish }

/-- The digest of the records of the genesis block. -/
def mainnetGenesisRecordsSha256 : Bytes :=
  [0x07, 0xbd, 0x8c, 0xce, 0x7d, 0x85, 0x65, 0x5e, 0x24, 0x86, 0x35, 0x42, 0xca, 0xba, 0xda, 0x99,
    0x98, 0x26, 0xd3, 0xc8, 0xb6, 0x78, 0x12, 0x22, 0xc4, 0xb1, 0x6c, 0x64, 0x13, 0x17, 0x98, 0xf8]

/-- The order of the transactions of a block. -/
def sortObjects (objects : List ObjectMetadata) : List ObjectMetadata :=
  sortByKey (fun object => recordKey object.format object.id) objects

theorem sortObjects_perm (objects : List ObjectMetadata) : (sortObjects objects).Perm objects :=
  sortByKey_perm _ objects

/-- Check the transactions of a block against its size and its transaction root, and leave them
sorted. -/
def verifyBlockDataRoot (suite : HashSuite) (encode : ObjectMetadata → Bytes)
    (block : BlockHeader) (objects : List ObjectMetadata) : Checked (List ObjectMetadata) := do
  Checked.ensure (objects.length = block.txs.length ∧ objects.length ≤ maxBlockTransactions)
    "incomplete block transaction data"
  let expectedIds ← block.txs.mapM fun id => decodeFixed 32 id "block transaction ID"
  Checked.ensure (expectedIds.dedup.length = block.txs.length) "duplicate block transaction ID"
  let sorted := sortObjects objects
  if block.height = 0 then do
    Checked.ensure (sorted.length = 314 ∧ block.indepHash =
        "7wIU7KolICAjClMlcZ38LZzshhI7xGkm2tDCJR7Wvhe3ESUo2-Z4-y0x1uaglRJE")
      "unsupported genesis block"
    let blockSize ← parseU128 block.blockSize "block size"
    Checked.ensure (blockSize = 0) "unsupported genesis block"
    let weaveSize ← parseU128 block.weaveSize "weave size"
    Checked.ensure (weaveSize = 0 ∧ block.txRoot = "P_OiqMNN1s4ltcaq0HXb9VFos_Zz6LFjM8ogUG0vJek")
      "unsupported genesis block"
  let state ← sorted.foldlM (placeObject suite encode block.height)
    { expectedIds := expectedIds.dedup, genesis := if block.height = 0 then some [] else none }
  match state.genesis with
  | some records => do
      Checked.ensure ((suite.sha256 [records]).val = mainnetGenesisRecordsSha256)
        "genesis transaction records differ from the official snapshot"
      pure sorted
  | none => do
      let blockSize ← parseU128 block.blockSize "block size"
      Checked.ensure (state.finish = blockSize)
        "transaction data does not match authenticated block size"
      let txRoot ← decodeB64 block.txRoot "block tx_root"
      Checked.ensure (((merkleRoot suite state.row).elim [] fun root => root.val) = txRoot)
        "transaction data does not match authenticated block tx_root"
      pure sorted

/-- A row of the block index: identifier, format and data size of a transaction. -/
structure SizeRow where
  id : Bytes
  format : Option Int
  size : Nat

/-- The loop that sums the sizes in front of a transaction. -/
def endOffset (height : Nat) (id : Bytes) : Nat → List SizeRow → Checked (Option (Nat × Nat))
  | _, [] => pure none
  | finish, row :: rows => do
      let finish ← checkedAddU128 finish row.size "block data size overflow"
      if row.id = id then pure (some (row.size, finish))
      else if fork25Height ≤ height then do
        let padded ← checkedAddU128 finish (paddingSize row.size) "block padding overflow"
        endOffset height id padded rows
      else endOffset height id finish rows

/-- The data size and the block-relative end of a transaction, with the order and the padding of
the tree. -/
def transactionEndOffset (height : Nat) (transactions : List SizeRow) (id : Bytes) :
    Checked (Option (Nat × Nat)) :=
  endOffset height id 0 (sortByKey (fun row => recordKey row.format row.id) transactions)

/-- Where the transaction after one of a given size starts. -/
def nextOffset (height start size : Nat) : Nat :=
  if fork25Height ≤ height then start + size + paddingSize size else start + size

/-- Where a transaction behind others starts. -/
def offsetAfter (height : Nat) : Nat → List Nat → Nat :=
  List.foldl (nextOffset height)

/-- The leaf of a transaction and the padding leaf behind it. -/
def objectLeaves (height start : Nat) (object : ObjectMetadata) : List (Bytes × Nat) :=
  (object.dataRoot.getD [], start + object.dataSize) ::
    if fork25Height ≤ height ∧ 0 < paddingSize object.dataSize then
      [([], start + object.dataSize + paddingSize object.dataSize)]
    else []

/-- The leaves of transactions in their order. -/
def dataLeaves (height : Nat) : Nat → List ObjectMetadata → List (Bytes × Nat)
  | _, [] => []
  | start, object :: objects => objectLeaves height start object ++
      dataLeaves height (nextOffset height start object.dataSize) objects

/-- The leaf of a row. -/
def leafRow (suite : HashSuite) (leaf : Bytes × Nat) : FixedBytes 32 × Nat :=
  (hashLeaf suite leaf.1 (note leaf.2).val, leaf.2)

theorem add_le_nextOffset (height start size : Nat) :
    start + size ≤ nextOffset height start size := by
  unfold nextOffset
  split <;> omega

theorem le_offsetAfter (height start : Nat) (sizes : List Nat) :
    start ≤ offsetAfter height start sizes := by
  induction sizes generalizing start with
  | nil => exact le_rfl
  | cons size sizes induction =>
      have step := add_le_nextOffset height start size
      exact (Nat.le_add_right start size).trans (step.trans (induction _))

theorem objectLeaves_bounds {height start : Nat} {object : ObjectMetadata} {leaf : Bytes × Nat}
    (member : leaf ∈ objectLeaves height start object) :
    start + object.dataSize ≤ leaf.2 ∧ leaf.2 ≤ nextOffset height start object.dataSize := by
  unfold objectLeaves at member
  rcases List.mem_cons.mp member with rfl | inPadding
  · exact ⟨le_rfl, add_le_nextOffset height start object.dataSize⟩
  · split at inPadding
    case isTrue padded =>
        obtain rfl := List.mem_singleton.mp inPadding
        simp [nextOffset, padded.1]
    case isFalse => cases inPadding

theorem dataLeaves_bounds {height start : Nat} {objects : List ObjectMetadata} {leaf : Bytes × Nat}
    (member : leaf ∈ dataLeaves height start objects) :
    start ≤ leaf.2 ∧ leaf.2 ≤ offsetAfter height start (objects.map ObjectMetadata.dataSize) := by
  induction objects generalizing start with
  | nil => cases member
  | cons object objects induction =>
      have step := add_le_nextOffset height start object.dataSize
      have rest := le_offsetAfter height (nextOffset height start object.dataSize)
        (objects.map ObjectMetadata.dataSize)
      rcases List.mem_append.mp member with first | later
      · obtain ⟨lower, upper⟩ := objectLeaves_bounds first
        exact ⟨by omega, upper.trans rest⟩
      · obtain ⟨lower, upper⟩ := induction later
        exact ⟨by omega, upper⟩

theorem dataLeaves_append (height start : Nat) (front back : List ObjectMetadata) :
    dataLeaves height start (front ++ back) = dataLeaves height start front ++
      dataLeaves height (offsetAfter height start (front.map ObjectMetadata.dataSize)) back := by
  induction front generalizing start with
  | nil => rfl
  | cons object front induction =>
      simp only [List.cons_append, dataLeaves, induction, List.append_assoc, List.map_cons]
      rfl

/-- The leaves of a block end in order. -/
theorem dataLeaves_ordered (height start : Nat) (objects : List ObjectMetadata) :
    (dataLeaves height start objects).Pairwise fun one other => one.2 ≤ other.2 := by
  induction objects generalizing start with
  | nil => exact List.Pairwise.nil
  | cons object objects induction =>
      refine List.pairwise_append.mpr ⟨?_, induction _, fun one oneMember other otherMember =>
        (objectLeaves_bounds oneMember).2.trans (dataLeaves_bounds otherMember).1⟩
      unfold objectLeaves
      split <;> simp

/-- The leaf in front of the next transaction ends where that transaction starts. -/
theorem exists_leaf_offsetAfter (height start : Nat) (objects : List ObjectMetadata) :
    offsetAfter height start (objects.map ObjectMetadata.dataSize) = start ∨
      ∃ leaf ∈ dataLeaves height start objects,
        leaf.2 = offsetAfter height start (objects.map ObjectMetadata.dataSize) := by
  induction objects generalizing start with
  | nil => exact .inl rfl
  | cons object objects induction =>
      right
      rcases induction (nextOffset height start object.dataSize) with same | ⟨leaf, member, ends⟩
      · have last : ∃ leaf ∈ objectLeaves height start object,
            leaf.2 = nextOffset height start object.dataSize := by
          unfold objectLeaves nextOffset
          by_cases padded : fork25Height ≤ height
          · by_cases zero : paddingSize object.dataSize = 0
            · exact ⟨_, List.mem_cons_self, by simp [padded, zero]⟩
            · exact ⟨([], start + object.dataSize + paddingSize object.dataSize),
                by simp [padded, Nat.pos_of_ne_zero zero], by simp [padded]⟩
          · exact ⟨_, List.mem_cons_self, by simp [padded]⟩
        obtain ⟨leaf, member, ends⟩ := last
        exact ⟨leaf, List.mem_append_left _ member, ends.trans same.symm⟩
      · exact ⟨leaf, List.mem_append_right _ member, ends⟩

/-- Up to an offset inside a transaction, the last leaf that ends is the one in front of it. -/
theorem startOf_dataLeaves {height target : Nat} {front back : List ObjectMetadata}
    {object : ObjectMetadata}
    (lower : offsetAfter height 0 (front.map ObjectMetadata.dataSize) ≤ target)
    (upper : target < offsetAfter height 0 (front.map ObjectMetadata.dataSize) + object.dataSize) :
    startOf (dataLeaves height 0 (front ++ object :: back)) target =
      offsetAfter height 0 (front.map ObjectMetadata.dataSize) := by
  rw [dataLeaves_append, startOf_append]
  have later : startOf (dataLeaves height (offsetAfter height 0
      (front.map ObjectMetadata.dataSize)) (object :: back)) target = 0 := by
    refine startOf_eq_zero fun leaf member => ?_
    rcases List.mem_append.mp member with first | rest
    · exact upper.trans_le (objectLeaves_bounds first).1
    · exact upper.trans_le ((add_le_nextOffset _ _ _).trans (dataLeaves_bounds rest).1)
  rw [later, Nat.max_eq_left (Nat.zero_le _)]
  refine le_antisymm (startOf_le fun leaf member _ => (dataLeaves_bounds member).2) ?_
  rcases exists_leaf_offsetAfter height 0 front with same | ⟨leaf, member, ends⟩
  · rw [same]
    exact Nat.zero_le _
  · rw [← ends]
    exact le_startOf member (ends ▸ lower)

/-- The first leaf that ends past an offset inside a transaction is the leaf of that
transaction. -/
theorem find_dataLeaves {height target : Nat} {front : List ObjectMetadata}
    (back : List ObjectMetadata) {object : ObjectMetadata}
    (lower : offsetAfter height 0 (front.map ObjectMetadata.dataSize) ≤ target)
    (upper : target < offsetAfter height 0 (front.map ObjectMetadata.dataSize) + object.dataSize) :
    (dataLeaves height 0 (front ++ object :: back)).find? (fun leaf => target < leaf.2) =
      some (object.dataRoot.getD [],
        offsetAfter height 0 (front.map ObjectMetadata.dataSize) + object.dataSize) := by
  have earlier : (dataLeaves height 0 front).find? (fun leaf => target < leaf.2) = none := by
    refine List.find?_eq_none.mpr fun leaf member => ?_
    have bound := (dataLeaves_bounds member).2
    simp only [decide_eq_true_eq]
    omega
  rw [dataLeaves_append, List.find?_append, earlier, Option.none_or, dataLeaves, objectLeaves]
  simp [upper]

theorem checkedAddU128_eq_ok {left right result : Nat} {message : String} :
    checkedAddU128 left right message = .ok result ↔ left + right < 2 ^ 128 ∧ left + right = result
    := by
  simp [checkedAddU128]

/-- One transaction of a block after the genesis block adds its leaves to the row. -/
theorem placeObject_spec {suite : HashSuite} {encode : ObjectMetadata → Bytes} {height : Nat}
    {state next : RowState} {object : ObjectMetadata} (notGenesis : state.genesis = none)
    (placed : placeObject suite encode height state object = .ok next) :
    next.genesis = none ∧ next.finish = nextOffset height state.finish object.dataSize ∧
      next.row = state.row ++ (objectLeaves height state.finish object).map (leafRow suite) ∧
      ∃ id ∈ state.expectedIds, object.id = id.val ∧
        next.expectedIds = state.expectedIds.erase id := by
  simp only [placeObject, notGenesis, Checked.bind_eq_ok, Checked.ensure_eq_ok,
    Checked.context_eq_ok] at placed
  obtain ⟨id, same, _, member, root, present, finish, added, placed⟩ := placed
  have idSame : object.id = id.val := by
    unfold toFixed at same
    split at same
    · obtain rfl := Except.ok.inj same
      rfl
    · cases same
  obtain ⟨_, rfl⟩ := checkedAddU128_eq_ok.mp added
  split at placed
  case isTrue padded =>
      obtain ⟨_, padding, placed⟩ := Checked.bind_eq_ok.mp placed
      obtain ⟨_, rfl⟩ := checkedAddU128_eq_ok.mp padding
      obtain rfl := Checked.pure_eq_ok.mp placed
      exact ⟨rfl, by simp [nextOffset, padded.1],
        by simp [objectLeaves, padded, leafRow, present], id, member, idSame, rfl⟩
  case isFalse unpadded =>
      cases placed
      have zero : fork25Height ≤ height → paddingSize object.dataSize = 0 := fun gate => by
        by_contra positive
        exact unpadded ⟨gate, Nat.pos_of_ne_zero positive⟩
      refine ⟨rfl, ?_, by simp [objectLeaves, unpadded, leafRow, present], id, member, idSame, rfl⟩
      unfold nextOffset
      split
      case isTrue gate => rw [zero gate, Nat.add_zero]
      case isFalse => rfl

/-- The loop over the transactions builds the row of the layout from members of the block. -/
theorem foldlM_placeObject_spec {suite : HashSuite} {encode : ObjectMetadata → Bytes}
    {height : Nat} {objects : List ObjectMetadata} {state last : RowState}
    (notGenesis : state.genesis = none) (distinct : state.expectedIds.Nodup)
    (placed : objects.foldlM (placeObject suite encode height) state = .ok last) :
    last.genesis = none ∧
      last.finish = offsetAfter height state.finish (objects.map ObjectMetadata.dataSize) ∧
      last.row = state.row ++ (dataLeaves height state.finish objects).map (leafRow suite) ∧
      (objects.map ObjectMetadata.id).Nodup ∧
      ∀ object ∈ objects, ∃ id ∈ state.expectedIds, object.id = id.val := by
  induction objects generalizing state with
  | nil =>
      cases placed
      exact ⟨notGenesis, rfl, by simp [dataLeaves], List.nodup_nil, by simp⟩
  | cons object objects induction =>
      rw [List.foldlM_cons, Checked.bind_eq_ok] at placed
      obtain ⟨next, first, rest⟩ := placed
      obtain ⟨nextGenesis, nextFinish, nextRow, id, member, same, nextIds⟩ :=
        placeObject_spec notGenesis first
      obtain ⟨lastGenesis, lastFinish, lastRow, lastDistinct, lastIds⟩ :=
        induction nextGenesis (nextIds ▸ distinct.erase id) rest
      refine ⟨lastGenesis, ?_, ?_, ?_, ?_⟩
      · rw [lastFinish, nextFinish]
        rfl
      · rw [lastRow, nextRow, nextFinish, dataLeaves, List.map_append, List.append_assoc]
      · refine List.nodup_cons.mpr ⟨fun again => ?_, lastDistinct⟩
        obtain ⟨other, otherMember, otherSame⟩ := List.mem_map.mp again
        obtain ⟨otherId, stillExpected, otherIdSame⟩ := lastIds other otherMember
        have identical : otherId = id :=
          Subtype.ext (otherIdSame.symm.trans (otherSame.trans same))
        rw [identical, nextIds] at stillExpected
        exact distinct.not_mem_erase stillExpected
      · intro other otherMember
        rcases List.mem_cons.mp otherMember with rfl | inRest
        · exact ⟨id, member, same⟩
        · obtain ⟨otherId, stillExpected, otherSame⟩ := lastIds other inRest
          rw [nextIds] at stillExpected
          exact ⟨otherId, List.mem_of_mem_erase stillExpected, otherSame⟩

/-- What acceptance of the transactions of a block says. -/
theorem verifyBlockDataRoot_eq_ok {suite : HashSuite} {encode : ObjectMetadata → Bytes}
    {block : BlockHeader} {objects sorted : List ObjectMetadata} (notGenesis : block.height ≠ 0)
    (accepted : verifyBlockDataRoot suite encode block objects = .ok sorted) :
    sorted = sortObjects objects ∧ (sorted.map ObjectMetadata.id).Nodup ∧
      parseU128 block.blockSize "block size" =
        .ok (offsetAfter block.height 0 (sorted.map ObjectMetadata.dataSize)) ∧
      decodeB64 block.txRoot "block tx_root" = .ok
        ((merkleRoot suite ((dataLeaves block.height 0 sorted).map (leafRow suite))).elim []
          fun root => root.val) := by
  simp only [verifyBlockDataRoot, notGenesis, if_false, Checked.bind_eq_ok,
    Checked.ensure_eq_ok] at accepted
  obtain ⟨_, _, expectedIds, _, _, _, last, placed, rest⟩ := accepted
  obtain ⟨lastGenesis, lastFinish, lastRow, distinct, _⟩ :=
    foldlM_placeObject_spec rfl (List.nodup_dedup expectedIds) placed
  rw [lastGenesis] at rest
  simp only [Checked.bind_eq_ok, Checked.ensure_eq_ok, Checked.pure_eq_ok] at rest
  obtain ⟨blockSize, sizeRead, _, rfl, txRoot, rootRead, _, rfl, rfl⟩ := rest
  rw [lastFinish] at sizeRead
  rw [lastRow] at rootRead
  exact ⟨rfl, distinct, sizeRead, rootRead⟩

/-- The sum of the sizes in front of a transaction, when the whole layout fits. -/
theorem endOffset_eq_ok {height start : Nat} {front back : List SizeRow} {row : SizeRow}
    (fits : offsetAfter height start ((front ++ row :: back).map SizeRow.size) < 2 ^ 128)
    (absent : ∀ other ∈ front, other.id ≠ row.id) :
    endOffset height row.id start (front ++ row :: back) =
      .ok (some (row.size, offsetAfter height start (front.map SizeRow.size) + row.size)) := by
  induction front generalizing start with
  | nil =>
      have step := add_le_nextOffset height start row.size
      have rest := le_offsetAfter height (nextOffset height start row.size)
        (back.map SizeRow.size)
      have fits : offsetAfter height (nextOffset height start row.size)
        (back.map SizeRow.size) < 2 ^ 128 := fits
      have added : checkedAddU128 start row.size "block data size overflow" =
          .ok (start + row.size) := checkedAddU128_eq_ok.mpr ⟨by omega, rfl⟩
      rw [List.nil_append, endOffset, added, Checked.ok_bind, if_pos rfl]
      rfl
  | cons other front induction =>
      have step := add_le_nextOffset height start other.size
      have rest := le_offsetAfter height (nextOffset height start other.size)
        ((front ++ row :: back).map SizeRow.size)
      have fits : offsetAfter height (nextOffset height start other.size)
        ((front ++ row :: back).map SizeRow.size) < 2 ^ 128 := fits
      have added : checkedAddU128 start other.size "block data size overflow" =
          .ok (start + other.size) := checkedAddU128_eq_ok.mpr ⟨by omega, rfl⟩
      have tail := induction fits fun another member => absent another
        (List.mem_cons_of_mem _ member)
      rw [List.cons_append, endOffset, added, Checked.ok_bind,
        if_neg (absent other List.mem_cons_self)]
      split
      case isTrue gate =>
          have padded : nextOffset height start other.size =
              start + other.size + paddingSize other.size := if_pos gate
          rw [checkedAddU128_eq_ok.mpr ⟨by omega, rfl⟩, Checked.ok_bind, ← padded, tail]
          rfl
      case isFalse gate =>
          have unpadded : nextOffset height start other.size = start + other.size := if_neg gate
          rw [← unpadded, tail]
          rfl

/-- The tree over the leaves of a block. -/
def blockTree (height : Nat) (objects : List ObjectMetadata) : Option (OffsetTree Bytes) :=
  reduce OffsetTree.branch ((dataLeaves height 0 (sortObjects objects)).map fun leaf =>
    .leaf leaf.1 leaf.2)

/-- The path that a tree gives to an offset. -/
def treePath (suite : HashSuite) (tree : OffsetTree Bytes) (target : Nat) : Bytes :=
  (tree.branches (nodeHash suite) note target).flatMap PathBranch.bytes ++
    ((tree.select target).1 ++ (note (tree.select target).2).val)

/-- The root of a row is the hash of the tree over its leaves. -/
theorem merkleRoot_leafRow (suite : HashSuite) (leaves : List (Bytes × Nat)) :
    merkleRoot suite (leaves.map (leafRow suite)) =
      (reduce OffsetTree.branch (leaves.map fun leaf => OffsetTree.leaf leaf.1 leaf.2)).map
        (OffsetTree.hash (nodeHash suite) note) := by
  have rows : leaves.map (leafRow suite) =
      (leaves.map fun leaf => OffsetTree.leaf leaf.1 leaf.2).map fun tree =>
        (tree.hash (nodeHash suite) note, tree.finish) := by
    rw [List.map_map]
    rfl
  rw [merkleRoot, rows, @reduce_map _ _ OffsetTree.branch _ _ fun _ _ => rfl, Option.map_map]
  rfl

/-- A walk that ends at the leaf of a transaction is an accepted path. -/
theorem validateTxPath_of_arrives {suite : HashSuite} {txRoot dataRoot : FixedBytes 32}
    {blockSize target relativeEnd : Nat} {bounds : Bounds} {path : Bytes}
    (previousWeaveSize : Nat)
    (arrives : Arrives suite (Bounds.turn target) ⟨0, blockSize⟩ txRoot path bounds dataRoot
      (note relativeEnd))
    (inside : target < blockSize) (small : relativeEnd < 2 ^ 128)
    (lower : bounds.left < relativeEnd) (upper : relativeEnd ≤ bounds.right) :
    validateTxPath suite txRoot (previousWeaveSize + target + 1) (previousWeaveSize + blockSize)
        previousWeaveSize path =
      .ok ⟨dataRoot, previousWeaveSize + bounds.left, previousWeaveSize + relativeEnd,
        relativeEnd - bounds.left⟩ := by
  obtain ⟨branches, rfl, followed⟩ := arrives.walked
  have length : (branches.flatMap PathBranch.bytes ++
      (dataRoot.val ++ (note relativeEnd).val)).length = 96 * branches.length + 64 := by
    simp [List.length_flatMap, List.map_const', Nat.mul_comm]
  have walked := (@walkBranches_eq_ok _ suite "tx_path" _ _ _ _ _ _
    (dataRoot.val ++ (note relativeEnd).val)).mpr
    ⟨branches, rfl, by simp [leafSize, hashSize, noteSize], followed⟩
  have size : previousWeaveSize + blockSize - previousWeaveSize = blockSize := by omega
  have offset : previousWeaveSize + target + 1 - previousWeaveSize - 1 = target := by omega
  have taken : (dataRoot.val ++ (note relativeEnd).val).take hashSize = dataRoot.val :=
    List.take_left' dataRoot.property
  have dropped : (dataRoot.val ++ (note relativeEnd).val).drop hashSize = (note relativeEnd).val :=
    List.drop_left' dataRoot.property
  simp only [validateTxPath, Checked.bind_eq_ok, Checked.ensure_eq_ok, Checked.pure_eq_ok,
    toFixed_eq_ok, size, offset]
  refine ⟨(), ?_, (), ?_, (), by omega, (), by omega, _, walked, (),
    by simp [leafSize, hashSize, noteSize], dataRoot, taken, (), by rw [dropped], relativeEnd, ?_,
    (), lower, (), upper, rfl⟩
  · rw [length]
    exact Nat.le_add_left _ _
  · rw [length]
    simp [leafSize, branchSize, hashSize, noteSize]
  · rw [dropped]
    exact noteToU128_note small

/-- The walk of a tree of a block to an offset. -/
theorem arrives_of_tree (suite : HashSuite) {tree : OffsetTree Bytes} {target blockSize : Nat}
    {dataRoot : FixedBytes 32} {finish : Nat} (ordered : tree.Ordered)
    (fits : tree.finish ≤ blockSize) (small : blockSize < 2 ^ 128) (inside : target < tree.finish)
    (selected : tree.select target = (dataRoot.val, finish)) :
    ∃ bounds : Bounds, Arrives suite (Bounds.turn target) ⟨0, blockSize⟩
        (tree.hash (nodeHash suite) note) (treePath suite tree target) bounds dataRoot
        (note finish) ∧
      bounds.left = startOf tree.leaves target ∧ finish ≤ bounds.right := by
  obtain ⟨last, followed, narrowed⟩ := @OffsetTree.follows _ _ _ _ (nodeHash suite) note
    (noteTurn (Bounds.turn target)) target tree id ⟨0, blockSize⟩
    (by
      rintro state boundary ⟨payload, member⟩
      have bound := OffsetTree.le_finish ordered _ member
      refine ⟨_, noteTurn_eq_some.mpr ⟨boundary, noteToU128_note (by omega), ?_⟩, rfl⟩
      simp only [id, Bounds.turn]
      split <;> simp_all)
  rw [selected] at followed
  rw [id, id] at narrowed
  refine ⟨last, ⟨_, by rw [treePath, selected], followed⟩, ?_, ?_⟩
  · rw [narrowed, OffsetTree.narrow_left ordered _ inside]
    exact Nat.max_eq_right (Nat.zero_le _)
  · have upper : (tree.select target).2 ≤ (tree.narrow target ⟨0, blockSize⟩).right :=
      OffsetTree.select_le_narrow ordered _ fits
    rwa [selected, ← narrowed] at upper

/-- The row of the block index for a transaction. -/
def sizeRow (object : ObjectMetadata) : SizeRow where
  id := object.id
  format := object.format
  size := object.dataSize

/-- The three placements of a transaction agree: for every accepted block after the genesis block
and every offset inside a transaction with data, the tree gives a path that is accepted with the
bounds of that transaction, and the sum over the sizes in any order gives the same end. -/
theorem block_data_placements_agree (suite : HashSuite) (encode : ObjectMetadata → Bytes)
    (block : BlockHeader) (objects sorted : List ObjectMetadata) (notGenesis : block.height ≠ 0)
    (accepted : verifyBlockDataRoot suite encode block objects = .ok sorted)
    (object : ObjectMetadata) (member : object ∈ objects) (nonempty : 0 < object.dataSize)
    (dataRoot : FixedBytes 32) (rooted : object.dataRoot = some dataRoot.val) :
    ∃ (tree : OffsetTree Bytes) (txRoot : FixedBytes 32) (blockSize start : Nat),
      blockTree block.height objects = some tree ∧
      tree.hash (nodeHash suite) note = txRoot ∧
      decodeFixed 32 block.txRoot "block tx_root" = .ok txRoot ∧
      parseU128 block.blockSize "block size" = .ok blockSize ∧
      (∀ offset previousWeaveSize, offset < object.dataSize →
        validateTxPath suite txRoot (previousWeaveSize + (start + offset) + 1)
            (previousWeaveSize + blockSize) previousWeaveSize
            (treePath suite tree (start + offset)) =
          .ok { dataRoot
                startBound := previousWeaveSize + start
                endOffset := previousWeaveSize + (start + object.dataSize)
                size := object.dataSize }) ∧
      ∀ rows : List SizeRow, rows.Perm (objects.map sizeRow) →
        transactionEndOffset block.height rows object.id =
          .ok (some (object.dataSize, start + object.dataSize)) := by
  obtain ⟨rfl, distinct, sizeRead, rootRead⟩ := verifyBlockDataRoot_eq_ok notGenesis accepted
  obtain ⟨front, back, split⟩ := List.append_of_mem
    ((sortObjects_perm objects).mem_iff.mpr member)
  have small := parseU128_lt sizeRead
  set start := offsetAfter block.height 0 (front.map ObjectMetadata.dataSize) with startEq
  set blockSize := offsetAfter block.height 0
    ((sortObjects objects).map ObjectMetadata.dataSize) with blockSizeEq
  have leavesNonempty : (dataLeaves block.height 0 (sortObjects objects)).map
      (fun leaf => OffsetTree.leaf leaf.1 leaf.2) ≠ [] := by
    rw [split, dataLeaves_append]
    simp [dataLeaves, objectLeaves]
  obtain ⟨tree, built, leaves⟩ := @reduce_content _ _ OffsetTree.branch
    (@OffsetTree.leaves Bytes) (fun _ _ => rfl) _ leavesNonempty
  have leaves : tree.leaves = dataLeaves block.height 0 (sortObjects objects) := by
    simpa [List.flatMap_map, OffsetTree.leaves] using leaves
  have ordered : tree.Ordered := by
    rw [OffsetTree.Ordered, leaves]
    exact dataLeaves_ordered _ _ _
  have fits : tree.finish ≤ blockSize := by
    obtain ⟨payload, last⟩ := tree.finish_mem
    rw [leaves] at last
    exact (dataLeaves_bounds last).2
  have decoded : decodeFixed 32 block.txRoot "block tx_root" =
      .ok (tree.hash (nodeHash suite) note) := by
    rw [decodeFixed_eq_ok, rootRead, merkleRoot_leafRow, built]
    rfl
  refine ⟨tree, _, blockSize, start, built, rfl, decoded, sizeRead, ?_, ?_⟩
  · intro offset previousWeaveSize within
    have lower : start ≤ start + offset := Nat.le_add_right _ _
    have upper : start + offset < start + object.dataSize := by omega
    have found := find_dataLeaves back lower upper
    rw [← split, ← leaves, rooted] at found
    have leafBound : start + object.dataSize ≤ tree.finish :=
      OffsetTree.le_finish ordered _ (List.mem_of_find?_eq_some found)
    have inside : start + offset < tree.finish := upper.trans_le leafBound
    have selected : tree.select (start + offset) = (dataRoot.val, start + object.dataSize) :=
      Option.some.inj ((OffsetTree.select_eq_find ordered inside).symm.trans found)
    obtain ⟨bounds, arrives, leftBound, rightBound⟩ :=
      arrives_of_tree suite ordered fits small inside selected
    rw [leaves, split, startOf_dataLeaves lower upper] at leftBound
    have result := validateTxPath_of_arrives previousWeaveSize arrives
      (inside.trans_le fits) (by omega) (by omega) rightBound
    rw [result, leftBound, Nat.add_sub_cancel_left]
  · intro rows perm
    have keys : (objects.map fun object => recordKey object.format object.id).Nodup := by
      have ids : (objects.map ObjectMetadata.id).Nodup :=
        ((sortObjects_perm objects).map ObjectMetadata.id).nodup_iff.mp distinct
      refine List.Nodup.of_map (fun key => (ofLex key).2) ?_
      have mapped : (objects.map fun object => recordKey object.format object.id).map
          (fun key => (ofLex key).2) = (objects.map ObjectMetadata.id).map
            (List.map UInt8.toNat) := by
        simp [recordKey, Function.comp_def]
      rw [mapped]
      exact ids.map (List.map_injective_iff.mpr fun _ _ => UInt8.toNat_inj.mp)
    have sortedRows : sortByKey (fun row : SizeRow => recordKey row.format row.id) rows =
        (sortObjects objects).map sizeRow :=
      sortByKey_eq (fun _ => rfl) keys perm
    have sizes : ∀ part : List ObjectMetadata,
        (part.map sizeRow).map SizeRow.size = part.map ObjectMetadata.dataSize := by
      intro part
      simp [sizeRow, Function.comp_def]
    rw [transactionEndOffset, sortedRows, split, List.map_append, List.map_cons]
    have idSame : object.id = (sizeRow object).id := rfl
    rw [idSame, endOffset_eq_ok, sizes]
    · rfl
    · rw [← List.map_cons, ← List.map_append, sizes, ← split]
      exact small
    · intro other otherMember same
      obtain ⟨earlier, earlierMember, rfl⟩ := List.mem_map.mp otherMember
      rw [split, List.map_append, List.map_cons] at distinct
      exact (List.nodup_append.mp distinct).2.2 _ (List.mem_map_of_mem earlierMember) _
        List.mem_cons_self same

/-- A transaction with the given byte in its identifier and data root. -/
def sampleObject (byte : UInt8) (size : Nat) : ObjectMetadata where
  id := List.replicate 32 byte
  kind := 0
  signature := []
  anchor := []
  ownerAddress := []
  ownerPublicKey := []
  target := []
  dataSize := size
  contentType := none
  contentEncoding := none
  signatureType := 1
  format := some 2
  quantity := some "0"
  reward := some "0"
  denomination := some 0
  dataRoot := some (List.replicate (if size = 0 then 0 else 32) byte)
  tags := []

/-- A whole chunk, five bytes and an empty transaction. -/
def sampleObjects : List ObjectMetadata :=
  [sampleObject 3 262144, sampleObject 1 5, sampleObject 2 0]

/-- The block of these transactions. -/
def sampleBlock : BlockHeader :=
  { sampleHeader with
    txs :=
      ["AQEBAQEBAQEBAQEBAQEBAQEBAQEBAQEBAQEBAQEBAQE",
        "AgICAgICAgICAgICAgICAgICAgICAgICAgICAgICAgI",
        "AwMDAwMDAwMDAwMDAwMDAwMDAwMDAwMDAwMDAwMDAwM"]
    blockSize := "524288"
    txRoot := "ORfjJFg9lp02FVpguGiy9YTje4JBlZAOVOfij6WctOU" }

theorem block_data_placements_agree_sample :
    ∃ (tree : OffsetTree Bytes) (txRoot : FixedBytes 32) (blockSize start : Nat),
      blockTree sampleBlock.height sampleObjects = some tree ∧
      decodeFixed 32 sampleBlock.txRoot "block tx_root" = .ok txRoot ∧
      validateTxPath sha2Suite txRoot (1000 + (start + 7) + 1) (1000 + blockSize) 1000
          (treePath sha2Suite tree (start + 7)) =
        .ok ⟨⟨List.replicate 32 3, rfl⟩, 1000 + start, 1000 + (start + 262144), 262144⟩ ∧
      transactionEndOffset sampleBlock.height (sampleObjects.map sizeRow).reverse
          (List.replicate 32 3) =
        .ok (some (262144, start + 262144)) := by
  obtain ⟨tree, txRoot, blockSize, start, built, _, decoded, _, paths, sums⟩ :=
    block_data_placements_agree sha2Suite (fun _ => []) sampleBlock sampleObjects
      (sortObjects sampleObjects) (by decide) (by decide +kernel) (sampleObject 3 262144)
      (by decide) (by decide) ⟨List.replicate 32 3, rfl⟩ (by decide)
  exact ⟨tree, txRoot, blockSize, start, built, decoded, paths 7 1000 (by decide),
    sums _ (List.reverse_perm _)⟩

end ArIoGateway
