import ArIoGateway.Merkle

/-!
# Merkle paths

The checks of a path that places a transaction in a block and of a path that places a chunk in a
transaction, and the result that a root and an offset leave no choice between accepted paths.
-/

namespace ArIoGateway

open MerkleWalk Octets

/-- A sum of two `u128` values, which wraps. -/
def addU128 (left right : Nat) : Nat := (left + right) % 2 ^ 128

/-- `checked_sub`. -/
def checkedSub (left right : Nat) : Option Nat := if right ≤ left then some (left - right) else none

/-- The place of a transaction in the weave. -/
structure TxPath where
  dataRoot : FixedBytes 32
  startBound : Nat
  endOffset : Nat
  size : Nat
deriving DecidableEq

/-- Check a path from a transaction root to the transaction that holds an offset. -/
def validateTxPath (suite : HashSuite) (txRoot : FixedBytes 32)
    (absoluteOffset blockWeaveSize previousWeaveSize : Nat) (path : Bytes) : Checked TxPath := do
  Checked.ensure (leafSize ≤ path.length) "tx_path is too short"
  Checked.ensure ((path.length - leafSize) % branchSize = 0) "tx_path length is malformed"
  Checked.ensure (previousWeaveSize < blockWeaveSize) "invalid block size"
  Checked.ensure (previousWeaveSize < absoluteOffset ∧ absoluteOffset ≤ blockWeaveSize)
    "requested offset is outside block"
  let blockSize := blockWeaveSize - previousWeaveSize
  let target := absoluteOffset - previousWeaveSize - 1
  let (bounds, currentHash, rest) ←
    walkBranches suite "tx_path" (Bounds.turn target) ⟨0, blockSize⟩ txRoot path
  Checked.ensure (rest.length = leafSize) "truncated tx_path leaf"
  let dataRoot ← toFixed hashSize (rest.take hashSize)
  let note := rest.drop hashSize
  Checked.ensure (hashLeaf suite dataRoot.val note = currentHash) "invalid tx_path leaf"
  let relativeEnd ← noteToU128 note
  Checked.ensure (bounds.left < relativeEnd) "tx_path has an empty transaction"
  Checked.ensure (relativeEnd ≤ bounds.right) "tx_path end exceeds its branch"
  pure
    { dataRoot
      startBound := previousWeaveSize + bounds.left
      endOffset := previousWeaveSize + relativeEnd
      size := relativeEnd - bounds.left }

def strictDataSplitThreshold : Nat := 30607159107830
def merkleRebaseSupportThreshold : Nat := 151066495197430

/-- How the split of a transaction into chunks is checked. -/
inductive SplitCheck where
  | none
  | strict
  | relaxed
deriving DecidableEq

/-- What the check of a data path knows besides its bounds. -/
structure DataContext where
  dataSize : Nat
  isRightmost : Option Bool
  leftShift : Nat
  checkBorders : Bool
  checkSplit : SplitCheck
  allowRebase : Bool
  rebaseDepth : Nat

/-- The place of a chunk in its transaction. -/
structure DataPath where
  start : Nat
  finish : Nat
  dataHash : FixedBytes 32
deriving DecidableEq

/-- What the loop over the branches of a data path learns. -/
structure DataWalk where
  bounds : Bounds
  isRightmost : Option Bool

/-- The turn at a branch of a data path. -/
def DataWalk.turn (target : Nat) (walk : DataWalk) (boundary : Nat) : Bool × DataWalk :=
  let (goLeft, bounds) := walk.bounds.turn target boundary
  (goLeft, { bounds, isRightmost := if goLeft then some false else walk.isRightmost <|> some true })

/-- `validate_split`. -/
def validateSplit (finish left right : Nat) (isRightmost : Option Bool) (context : DataContext) :
    Checked Unit :=
  match context.checkSplit with
  | .none => pure ()
  | .strict => do
      Checked.ensure (left ≤ finish) "invalid strict split bounds"
      let size := finish - left
      let border := right / maxChunkSize * maxChunkSize
      let valid : Bool :=
        if size = maxChunkSize then left % maxChunkSize = 0
        else if finish = context.dataSize then right % maxChunkSize ≠ 0 ∧ left ≤ border
        else left % maxChunkSize = 0 ∧ maxChunkSize < context.dataSize - left ∧
          context.dataSize - left < maxChunkSize * 2
      Checked.ensure (valid = true) "data_path violates strict data split"
  | .relaxed =>
      let shiftedLeft := addU128 context.leftShift left
      let shiftedEnd := addU128 context.leftShift finish
      let valid : Bool :=
        if isRightmost = some true then
          shiftedLeft % maxChunkSize = 0 ∨
            (shiftedLeft / maxChunkSize + 1 = shiftedEnd / maxChunkSize ∧
              shiftedEnd % maxChunkSize ≠ 0)
        else shiftedLeft % maxChunkSize = 0
      Checked.ensure (valid = true) "data_path violates relaxed data split"

/-- Check the part of a data path below the last rebase. -/
def walkDataPath (suite : HashSuite) (root : FixedBytes 32) (target leftBound rightBound : Nat)
    (path : Bytes) (context : DataContext) : Checked DataPath := do
  Checked.ensure (0 < rightBound) "data_path has empty bounds"
  let (walk, currentHash, rest) ← walkBranches suite "data_path" (DataWalk.turn target)
    ⟨⟨leftBound, rightBound⟩, context.isRightmost⟩ root path
  Checked.ensure (rest.length = leafSize) "truncated data_path leaf"
  let dataHash ← toFixed hashSize (rest.take hashSize)
  let note := rest.drop hashSize
  let leafEnd ← noteToU128 note
  Checked.ensure (hashLeaf suite dataHash.val note = currentHash) "invalid data_path leaf"
  let left := walk.bounds.left
  let right := walk.bounds.right
  Checked.ensure (context.checkBorders = true →
      leafEnd - left ≤ maxChunkSize ∧ right - left ≤ maxChunkSize)
    "data_path violates chunk borders"
  validateSplit leafEnd left right walk.isRightmost context
  let start := addU128 context.leftShift left
  let finish := addU128 context.leftShift (max (min right leafEnd) (addU128 left 1))
  Checked.ensure (start < finish) "data_path made no forward progress"
  pure { start, finish, dataHash }

/-- Check a data path that may start with rebase nodes, which restart the offsets of a subtree at
zero.  A rebase node is a zero hash in front of a branch. -/
def walkRebasedDataPath (suite : HashSuite) (root : Option (FixedBytes 32))
    (target leftBound rightBound : Nat) (path : Bytes) (context : DataContext) :
    Checked DataPath :=
  if context.allowRebase = true ∧ 128 ≤ path.length ∧ (path.take 32).all (· = 0) = true then do
    Checked.ensure (context.rebaseDepth < 64) "data_path rebasing depth exceeded"
    let left ← toFixed 32 ((path.drop 32).take 32)
    let right ← toFixed 32 ((path.drop 64).take 32)
    let note := (path.drop 96).take 32
    match root with
    | some root =>
        Checked.ensure (hashBranch suite left.val right.val note = root) "invalid rebase branch"
    | none => pure ()
    let boundary ← noteToU128 note
    let (nextRoot, nextTarget, nextRight, nextShift) ←
      if target < boundary then do
        let adjusted := min rightBound boundary
        Checked.ensure (leftBound ≤ adjusted) "invalid left rebase boundary"
        let nextTarget ← Checked.context (checkedSub target leftBound) "rebase target underflow"
        pure (left, nextTarget, adjusted - leftBound, addU128 context.leftShift leftBound)
      else do
        let adjusted := max leftBound boundary
        Checked.ensure (adjusted ≤ rightBound) "invalid right rebase boundary"
        let nextTarget ← Checked.context (checkedSub target adjusted) "rebase target underflow"
        pure (right, nextTarget, rightBound - adjusted, addU128 context.leftShift adjusted)
    let nextContext := { context with
      leftShift := nextShift
      isRightmost := none
      rebaseDepth := context.rebaseDepth + 1 }
    walkRebasedDataPath suite (some nextRoot) nextTarget 0 nextRight (path.drop 128) nextContext
  else do
    let root ← Checked.context root "missing data_path root"
    walkDataPath suite root target leftBound rightBound path context
termination_by path.length
decreasing_by
  rw [List.length_drop]
  omega

/-- The checks that an absolute offset asks for: borders, split and rebasing. -/
def dataPathRules (absoluteOffset : Nat) : Bool × SplitCheck × Bool :=
  if merkleRebaseSupportThreshold ≤ absoluteOffset then (true, .relaxed, true)
  else if strictDataSplitThreshold ≤ absoluteOffset then (true, .strict, false)
  else (false, .none, false)

/-- Check a path from a data root to the chunk that holds an offset. -/
def validateDataPath (suite : HashSuite) (dataRoot : FixedBytes 32)
    (dataSize relativeOffset absoluteOffset : Nat) (path : Bytes) : Checked DataPath := do
  Checked.ensure (0 < dataSize) "data_path has zero data size"
  Checked.ensure (relativeOffset < dataSize) "data_path offset is outside transaction"
  Checked.ensure (leafSize ≤ path.length) "data_path is too short"
  let (checkBorders, checkSplit, allowRebase) := dataPathRules absoluteOffset
  walkRebasedDataPath suite (some dataRoot) relativeOffset 0 dataSize path
    { dataSize
      isRightmost := none
      leftShift := 0
      checkBorders
      checkSplit
      allowRebase
      rebaseDepth := 0 }

/-- A path whose loop ends at a leaf of the expected hash. -/
structure Arrives {State : Type} (suite : HashSuite) (turn : State → Nat → Bool × State)
    (state : State) (root : FixedBytes 32) (path : Bytes) (last : State)
    (payload note : FixedBytes 32) : Prop where
  walked : ∃ branches : List PathBranch,
    path = branches.flatMap PathBranch.bytes ++ (payload.val ++ note.val) ∧
    Follows (nodeHash suite) (noteTurn turn) state root branches last
      (hashLeaf suite payload.val note.val)

/-- The loop and the check of the leaf behind it. -/
theorem arrives_of_walkBranches {State : Type} {suite : HashSuite} {label : String}
    {turn : State → Nat → Bool × State} {state last : State} {root currentHash : FixedBytes 32}
    {path rest : Bytes} {payload : FixedBytes 32}
    (walked : walkBranches suite label turn state root path = .ok (last, currentHash, rest))
    (whole : rest.length = leafSize) (taken : rest.take hashSize = payload.val)
    (leaf : hashLeaf suite payload.val (rest.drop hashSize) = currentHash) :
    ∃ note : FixedBytes 32, rest.drop hashSize = note.val ∧
      Arrives suite turn state root path last payload note := by
  obtain ⟨branches, rfl, _, followed⟩ := walkBranches_eq_ok.mp walked
  refine ⟨⟨rest.drop hashSize, by rw [List.length_drop, whole]; rfl⟩, rfl, ⟨branches, ?_, ?_⟩⟩
  · rw [← taken, List.take_append_drop]
  · rw [leaf]
    exact followed

/-- Two arrivals from one root are one path. -/
theorem Arrives.unique {State : Type} {suite : HashSuite} {turn : State → Nat → Bool × State}
    {state leftLast rightLast : State} {root : FixedBytes 32} {leftPath rightPath : Bytes}
    {leftPayload leftNote rightPayload rightNote : FixedBytes 32}
    (free : Collision.Free suite.digest256
      (pathMessages suite leftPath ++ pathMessages suite rightPath))
    (left : Arrives suite turn state root leftPath leftLast leftPayload leftNote)
    (right : Arrives suite turn state root rightPath rightLast rightPayload rightNote) :
    leftPayload = rightPayload ∧ leftNote = rightNote ∧ leftLast = rightLast := by
  obtain ⟨leftBranches, rfl, leftFollows⟩ := left.walked
  obtain ⟨rightBranches, rfl, rightFollows⟩ := right.walked
  rw [pathMessages_eq, pathMessages_eq] at free
  have distinct : ∀ one ∈ nodes leftBranches leftPayload.val leftNote,
      ∀ other ∈ nodes rightBranches rightPayload.val rightNote,
        nodeHash suite one = nodeHash suite other → one = other := by
    intro one oneMember other otherMember same
    refine nodeHash_inj (free.mono ?_) same
    refine List.append_subset.mpr ⟨fun message member => ?_, fun message member => ?_⟩
    · exact List.mem_append_left _ (List.mem_flatMap.mpr ⟨one, oneMember, member⟩)
    · exact List.mem_append_right _ (List.mem_flatMap.mpr ⟨other, otherMember, member⟩)
  obtain ⟨_, payloads, notes, lasts⟩ := leftFollows.unique rightFollows rfl rfl distinct
  exact ⟨Subtype.ext payloads, notes, lasts⟩

/-- What acceptance of a transaction path says. -/
theorem validateTxPath_eq_ok {suite : HashSuite} {txRoot : FixedBytes 32}
    {absoluteOffset blockWeaveSize previousWeaveSize : Nat} {path : Bytes} {result : TxPath}
    (accepted : validateTxPath suite txRoot absoluteOffset blockWeaveSize previousWeaveSize path =
      .ok result) :
    ∃ (bounds : Bounds) (note : FixedBytes 32) (relativeEnd : Nat),
      Arrives suite (Bounds.turn (absoluteOffset - previousWeaveSize - 1))
        ⟨0, blockWeaveSize - previousWeaveSize⟩ txRoot path bounds result.dataRoot note ∧
      noteToU128 note.val = .ok relativeEnd ∧
      result.startBound = previousWeaveSize + bounds.left ∧
      result.endOffset = previousWeaveSize + relativeEnd ∧
      result.size = relativeEnd - bounds.left := by
  simp only [validateTxPath, Checked.bind_eq_ok, Checked.ensure_eq_ok, Checked.pure_eq_ok,
    toFixed_eq_ok] at accepted
  obtain ⟨_, _, _, _, _, _, _, _, ⟨bounds, currentHash, rest⟩, walked, _, whole, dataRoot, taken, _,
    leaf, relativeEnd, read, _, _, _, _, rfl⟩ := accepted
  obtain ⟨note, noteSame, arrives⟩ := arrives_of_walkBranches walked whole taken leaf
  exact ⟨bounds, note, relativeEnd, arrives, noteSame ▸ read, rfl, rfl, rfl⟩

/-- The chunk that a data path arrives at, as its bounds and leaf determine it. -/
def chunkAt (context : DataContext) (bounds : Bounds) (leafEnd : Nat)
    (dataHash : FixedBytes 32) : DataPath where
  start := addU128 context.leftShift bounds.left
  finish := addU128 context.leftShift (max (min bounds.right leafEnd) (addU128 bounds.left 1))
  dataHash := dataHash

/-- What acceptance of a data path below its last rebase says. -/
theorem walkDataPath_eq_ok {suite : HashSuite} {root : FixedBytes 32}
    {target leftBound rightBound : Nat} {path : Bytes} {context : DataContext} {result : DataPath}
    (accepted : walkDataPath suite root target leftBound rightBound path context = .ok result) :
    ∃ (walk : DataWalk) (note : FixedBytes 32) (leafEnd : Nat),
      Arrives suite (DataWalk.turn target) ⟨⟨leftBound, rightBound⟩, context.isRightmost⟩ root path
        walk result.dataHash note ∧
      noteToU128 note.val = .ok leafEnd ∧
      result = chunkAt context walk.bounds leafEnd result.dataHash := by
  simp only [walkDataPath, Checked.bind_eq_ok, Checked.ensure_eq_ok, Checked.pure_eq_ok,
    toFixed_eq_ok] at accepted
  obtain ⟨_, _, ⟨walk, currentHash, rest⟩, walked, _, whole, dataHash, taken, leafEnd, read, _, leaf,
    _, _, _, _, _, _, rfl⟩ := accepted
  obtain ⟨note, noteSame, arrives⟩ := arrives_of_walkBranches walked whole taken leaf
  exact ⟨walk, note, leafEnd, arrives, noteSame ▸ read, rfl⟩

/-- Below the rebase threshold a data path is walked as it is. -/
theorem validateDataPath_eq_ok {suite : HashSuite} {dataRoot : FixedBytes 32}
    {dataSize relativeOffset absoluteOffset : Nat} {path : Bytes} {result : DataPath}
    (below : absoluteOffset < merkleRebaseSupportThreshold)
    (accepted : validateDataPath suite dataRoot dataSize relativeOffset absoluteOffset path =
      .ok result) :
    ∃ context : DataContext,
      context.dataSize = dataSize ∧ context.isRightmost = none ∧ context.leftShift = 0 ∧
      walkDataPath suite dataRoot relativeOffset 0 dataSize path context = .ok result := by
  have noRebase : (dataPathRules absoluteOffset).2.2 = false := by
    rw [dataPathRules, if_neg (Nat.not_le.mpr below)]
    split <;> rfl
  simp only [validateDataPath, Checked.bind_eq_ok, Checked.ensure_eq_ok] at accepted
  obtain ⟨_, _, _, _, _, _, walked⟩ := accepted
  rw [walkRebasedDataPath, if_neg (by simp [noRebase])] at walked
  exact ⟨_, rfl, rfl, rfl, by simpa [Checked.context] using walked⟩

/-- A root and an offset leave no choice: accepted transaction paths place the same transaction,
and accepted data paths below the rebase threshold place the same chunk. -/
theorem merkle_path_uniqueness (suite : HashSuite) (root : FixedBytes 32)
    (leftPath rightPath : Bytes)
    (free : Collision.Free suite.digest256
      (pathMessages suite leftPath ++ pathMessages suite rightPath)) :
    (∀ absoluteOffset blockWeaveSize previousWeaveSize left right,
      validateTxPath suite root absoluteOffset blockWeaveSize previousWeaveSize leftPath =
        .ok left →
      validateTxPath suite root absoluteOffset blockWeaveSize previousWeaveSize rightPath =
        .ok right →
      left = right) ∧
    (∀ dataSize relativeOffset absoluteOffset left right,
      absoluteOffset < merkleRebaseSupportThreshold →
      validateDataPath suite root dataSize relativeOffset absoluteOffset leftPath = .ok left →
      validateDataPath suite root dataSize relativeOffset absoluteOffset rightPath = .ok right →
      left = right) := by
  constructor
  · intro absoluteOffset blockWeaveSize previousWeaveSize left right leftAccepted rightAccepted
    obtain ⟨_, _, _, leftArrives, leftRead, leftStart, leftEnd, leftSize⟩ :=
      validateTxPath_eq_ok leftAccepted
    obtain ⟨_, _, _, rightArrives, rightRead, rightStart, rightEnd, rightSize⟩ :=
      validateTxPath_eq_ok rightAccepted
    obtain ⟨roots, rfl, rfl⟩ := leftArrives.unique free rightArrives
    obtain rfl := Except.ok.inj (leftRead.symm.trans rightRead)
    rcases left with ⟨leftRoot, leftStart, leftEnd, leftSize⟩
    rcases right with ⟨rightRoot, rightStart, rightEnd, rightSize⟩
    simp_all
  · intro dataSize relativeOffset absoluteOffset left right below leftAccepted rightAccepted
    obtain ⟨leftContext, _, leftEdge, leftShift, leftWalked⟩ :=
      validateDataPath_eq_ok below leftAccepted
    obtain ⟨rightContext, _, rightEdge, rightShift, rightWalked⟩ :=
      validateDataPath_eq_ok below rightAccepted
    obtain ⟨_, _, _, leftArrives, leftRead, leftResult⟩ := walkDataPath_eq_ok leftWalked
    obtain ⟨_, _, _, rightArrives, rightRead, rightResult⟩ := walkDataPath_eq_ok rightWalked
    rw [leftEdge] at leftArrives
    rw [rightEdge] at rightArrives
    obtain ⟨hashes, rfl, rfl⟩ := leftArrives.unique free rightArrives
    obtain rfl := Except.ok.inj (leftRead.symm.trans rightRead)
    rw [leftResult, rightResult, hashes]
    simp [chunkAt, leftShift, rightShift]

/-- The payload of both leaves of a small tree. -/
def samplePayload : FixedBytes 32 := ⟨List.replicate 32 7, rfl⟩

/-- The branch of a tree of five and four bytes. -/
def sampleBranch : PathBranch where
  left := hashLeaf sha2Suite samplePayload.val (note 5).val
  right := hashLeaf sha2Suite samplePayload.val (note 9).val
  note := note 5

/-- The path to the first leaf. -/
def samplePath : Bytes :=
  PathBranch.bytes sampleBranch ++ (samplePayload.val ++ (note 5).val)

theorem merkle_path_uniqueness_sample :
    (∃ left right,
      validateTxPath sha2Suite (nodeHash sha2Suite (.branch sampleBranch)) 104 109 100 samplePath =
        .ok left ∧ left = right ∧ right = ⟨samplePayload, 100, 105, 5⟩) ∧
    ∃ left right,
      validateDataPath sha2Suite (nodeHash sha2Suite (.branch sampleBranch)) 9 3 104 samplePath =
        .ok left ∧ left = right ∧ right = ⟨0, 5, samplePayload⟩ := by
  have unique := merkle_path_uniqueness sha2Suite (nodeHash sha2Suite (.branch sampleBranch))
    samplePath samplePath (by decide +kernel)
  have txAccepted : validateTxPath sha2Suite (nodeHash sha2Suite (.branch sampleBranch)) 104 109 100
      samplePath = .ok ⟨samplePayload, 100, 105, 5⟩ := by decide +kernel
  have dataAccepted : validateDataPath sha2Suite (nodeHash sha2Suite (.branch sampleBranch)) 9 3 104
      samplePath = .ok ⟨0, 5, samplePayload⟩ := by decide +kernel
  exact ⟨⟨_, _, txAccepted, unique.1 _ _ _ _ _ txAccepted txAccepted, rfl⟩,
    ⟨_, _, dataAccepted, unique.2 _ _ _ _ _ (by decide) dataAccepted dataAccepted, rfl⟩⟩

end ArIoGateway
