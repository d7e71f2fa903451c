import ArIoGateway.BlockData
import ArIoGateway.Transactions

/-!
# The data tree of inline transactions

The tree behind the root of inline data, and the result that its paths are accepted for every
offset under every rule of splitting, with the exact chunk.
-/

namespace ArIoGateway

open MerkleWalk Octets

/-- The chunk of a place, cut out of the data. -/
def inlineChunk (data : Bytes) (index : Nat) : Bytes :=
  (data.take (min (index * maxChunkSize + maxChunkSize) data.length)).drop (index * maxChunkSize)

/-- The leaves of inline data.  The last one may be empty. -/
def inlineLeaves (suite : HashSuite) (data : Bytes) : List (Bytes × Nat) :=
  (List.range (data.length / maxChunkSize + 1)).map fun index =>
    ((suite.sha256 [inlineChunk data index]).val,
      min (index * maxChunkSize + maxChunkSize) data.length)

/-- The tree over the leaves of inline data. -/
def inlineTree (suite : HashSuite) (data : Bytes) : Option (OffsetTree Bytes) :=
  reduce OffsetTree.branch ((inlineLeaves suite data).map fun leaf => .leaf leaf.1 leaf.2)

theorem inlineDataRoot_eq (suite : HashSuite) (data : Bytes) :
    inlineDataRoot suite data = Checked.context
      ((inlineTree suite data).map (OffsetTree.hash (nodeHash suite) note))
      "inline data always has a leaf" := by
  have rows : inlineDataRoot suite data = Checked.context
      (merkleRoot suite ((inlineLeaves suite data).map (leafRow suite)))
      "inline data always has a leaf" := by
    rw [inlineLeaves, List.map_map]
    rfl
  rw [rows, merkleRoot_leafRow]
  rfl

/-- The leaf of a place. -/
theorem getElem?_inlineLeaves {suite : HashSuite} {data : Bytes} {index : Nat}
    (inside : index * maxChunkSize ≤ data.length) :
    (inlineLeaves suite data)[index]? = some ((suite.sha256 [inlineChunk data index]).val,
      min (index * maxChunkSize + maxChunkSize) data.length) := by
  have place : index < data.length / maxChunkSize + 1 :=
    Nat.lt_succ_of_le ((Nat.le_div_iff_mul_le (by decide)).mpr inside)
  simp [inlineLeaves, List.getElem?_range place]

theorem inlineLeaves_ordered (suite : HashSuite) (data : Bytes) :
    (inlineLeaves suite data).Pairwise fun one other => one.2 ≤ other.2 := by
  rw [inlineLeaves, List.pairwise_map]
  refine List.pairwise_lt_range.imp fun {first second} less => ?_
  have scaled := Nat.mul_le_mul_right maxChunkSize less.le
  simp only
  omega

section Tree

variable {suite : HashSuite} {data : Bytes} {tree : OffsetTree Bytes}

theorem inlineTree_leaves (built : inlineTree suite data = some tree) :
    tree.leaves = inlineLeaves suite data := by
  obtain ⟨whole, reduced, leaves⟩ := @reduce_content _ _ OffsetTree.branch
    (@OffsetTree.leaves Bytes) (fun _ _ => rfl)
    ((inlineLeaves suite data).map fun leaf => .leaf leaf.1 leaf.2) (by simp [inlineLeaves])
  obtain rfl : whole = tree := Option.some.inj (reduced.symm.trans built)
  simpa [List.flatMap_map, OffsetTree.leaves] using leaves

theorem exists_inlineTree (suite : HashSuite) (data : Bytes) :
    ∃ tree, inlineTree suite data = some tree := by
  obtain ⟨whole, reduced, _⟩ := @reduce_content _ _ OffsetTree.branch
    (@OffsetTree.leaves Bytes) (fun _ _ => rfl)
    ((inlineLeaves suite data).map fun leaf => .leaf leaf.1 leaf.2) (by simp [inlineLeaves])
  exact ⟨whole, reduced⟩

theorem inlineTree_ordered (built : inlineTree suite data = some tree) : tree.Ordered := by
  rw [OffsetTree.Ordered, inlineTree_leaves built]
  exact inlineLeaves_ordered suite data

/-- The tree ends with the data. -/
theorem inlineTree_finish (built : inlineTree suite data = some tree) :
    tree.finish = data.length := by
  refine le_antisymm ?_ ?_
  · obtain ⟨payload, member⟩ := tree.finish_mem
    rw [inlineTree_leaves built, inlineLeaves] at member
    obtain ⟨index, _, same⟩ := List.mem_map.mp member
    have ends := congrArg Prod.snd same
    simp only at ends
    omega
  · have last := Nat.div_mul_le_self data.length maxChunkSize
    have found := @getElem?_inlineLeaves suite data _ last
    rw [← inlineTree_leaves built] at found
    have bound := OffsetTree.le_finish (inlineTree_ordered built) _ (List.mem_of_getElem? found)
    have rest := Nat.div_add_mod data.length maxChunkSize
    have small := Nat.mod_lt data.length (show 0 < maxChunkSize by decide)
    rw [Nat.mul_comm] at rest
    simp only at bound
    omega

/-- An offset leads to the chunk that it lies in. -/
theorem position_inlineTree (built : inlineTree suite data = some tree) {offset : Nat}
    (inside : offset < data.length) : tree.position offset = offset / maxChunkSize := by
  have ordered := inlineTree_ordered built
  have leaves := inlineTree_leaves built
  have positive : 0 < maxChunkSize := by decide
  have below := Nat.div_mul_le_self offset maxChunkSize
  have above := Nat.lt_div_mul_add positive (a := offset)
  refine le_antisymm (Nat.le_of_not_lt fun early => ?_) (Nat.le_of_lt_succ ?_)
  · have found := @getElem?_inlineLeaves suite data (offset / maxChunkSize) (by omega)
    rw [← leaves] at found
    have ends := OffsetTree.le_of_lt_position ordered early _ found
    simp only at ends
    omega
  · have selected := tree.getElem?_position offset
    have reached : offset < tree.finish := by rwa [inlineTree_finish built]
    have past := OffsetTree.lt_select reached
    rw [leaves] at selected
    obtain ⟨_, same⟩ := List.getElem?_eq_some_iff.mp selected
    have ends := congrArg Prod.snd same
    simp only [inlineLeaves, List.getElem_map, List.getElem_range] at ends
    rw [Nat.div_lt_iff_lt_mul positive, Nat.succ_mul]
    omega

theorem select_inlineTree (built : inlineTree suite data = some tree) {offset : Nat}
    (inside : offset < data.length) :
    tree.select offset = ((suite.sha256 [inlineChunk data (offset / maxChunkSize)]).val,
      min (offset / maxChunkSize * maxChunkSize + maxChunkSize) data.length) := by
  have below := Nat.div_mul_le_self offset maxChunkSize
  have selected := tree.getElem?_position offset
  rw [position_inlineTree built inside, inlineTree_leaves built,
    getElem?_inlineLeaves (by omega)] at selected
  exact (Option.some.inj selected).symm

/-- The leaf before the one of an offset ends where its chunk starts. -/
theorem startOf_inlineTree (built : inlineTree suite data = some tree) {offset : Nat}
    (inside : offset < data.length) :
    startOf tree.leaves offset = offset / maxChunkSize * maxChunkSize := by
  have positive : 0 < maxChunkSize := by decide
  have below := Nat.div_mul_le_self offset maxChunkSize
  rw [inlineTree_leaves built]
  refine le_antisymm (startOf_le fun one member before => ?_) ?_
  · obtain ⟨index, _, rfl⟩ := List.mem_map.mp member
    simp only at before ⊢
    have scaled : (index + 1) * maxChunkSize ≤ offset := by
      rw [Nat.succ_mul]
      omega
    have ahead := Nat.mul_le_mul_right maxChunkSize
      ((Nat.le_div_iff_mul_le positive).mpr scaled)
    rw [Nat.succ_mul] at ahead
    omega
  · cases place : offset / maxChunkSize with
    | zero => simp
    | succ index =>
        rw [place, Nat.succ_mul] at below
        have found := @getElem?_inlineLeaves suite data index (by omega)
        have before : min (index * maxChunkSize + maxChunkSize) data.length ≤ offset := by omega
        have bound := le_startOf (List.mem_of_getElem? found) before
        simp only at bound
        rw [Nat.succ_mul]
        omega

/-- The bounds that a walk to an offset ends with are those of its chunk. -/
theorem narrow_inlineTree (built : inlineTree suite data = some tree) {offset : Nat}
    (inside : offset < data.length) :
    tree.narrow offset ⟨0, data.length⟩ =
      ⟨offset / maxChunkSize * maxChunkSize,
        min (offset / maxChunkSize * maxChunkSize + maxChunkSize) data.length⟩ := by
  have ordered := inlineTree_ordered built
  have finish := inlineTree_finish built
  have left := OffsetTree.narrow_left ordered ⟨0, data.length⟩ (by rwa [finish])
  have right := @OffsetTree.narrow_right _ offset _ ordered ⟨0, data.length⟩ finish.symm
  rw [startOf_inlineTree built inside, Nat.max_eq_right (Nat.zero_le _)] at left
  rw [select_inlineTree built inside] at right
  cases narrowed : tree.narrow offset ⟨0, data.length⟩ with
  | mk lower upper =>
      rw [narrowed] at left right
      simp only at left right
      rw [left, right]

/-- The walk of a data path through the tree. -/
theorem arrives_inlineTree (built : inlineTree suite data = some tree)
    (small : data.length < 2 ^ 64) {offset : Nat} (inside : offset < data.length) :
    ∃ walk : DataWalk,
      Arrives suite (DataWalk.turn offset) ⟨⟨0, data.length⟩, none⟩
        (tree.hash (nodeHash suite) note) (treePath suite tree offset) walk
        (suite.sha256 [inlineChunk data (offset / maxChunkSize)])
        (note (min (offset / maxChunkSize * maxChunkSize + maxChunkSize) data.length)) ∧
      walk.bounds = ⟨offset / maxChunkSize * maxChunkSize,
        min (offset / maxChunkSize * maxChunkSize + maxChunkSize) data.length⟩ := by
  obtain ⟨last, followed, narrowed⟩ := @OffsetTree.follows _ _ _ _ (nodeHash suite) note
    (noteTurn (DataWalk.turn offset)) offset tree DataWalk.bounds ⟨⟨0, data.length⟩, none⟩
    (by
      rintro state boundary ⟨payload, member⟩
      have bound := OffsetTree.le_finish (inlineTree_ordered built) _ member
      rw [inlineTree_finish built] at bound
      refine ⟨(DataWalk.turn offset state boundary).2,
        noteTurn_eq_some.mpr ⟨boundary, noteToU128_note (by omega), ?_⟩, rfl⟩
      simp only [DataWalk.turn, Bounds.turn]
      split <;> simp_all)
  have selected := select_inlineTree built inside
  rw [narrow_inlineTree built inside] at narrowed
  rw [selected] at followed
  exact ⟨last, ⟨_, by rw [treePath, selected], followed⟩, narrowed⟩

end Tree

/-- The split of chunks of full size passes every rule. -/
theorem validateSplit_inline {size offset : Nat} (inside : offset < size) (small : size < 2 ^ 64)
    (isRightmost : Option Bool) {context : DataContext} (sized : context.dataSize = size)
    (unshifted : context.leftShift = 0) :
    validateSplit (min (offset / maxChunkSize * maxChunkSize + maxChunkSize) size)
      (offset / maxChunkSize * maxChunkSize)
      (min (offset / maxChunkSize * maxChunkSize + maxChunkSize) size) isRightmost context =
        .ok () := by
  have positive : 0 < maxChunkSize := by decide
  have below := Nat.div_mul_le_self offset maxChunkSize
  have multiple : offset / maxChunkSize * maxChunkSize % maxChunkSize = 0 := Nat.mul_mod_left _ _
  unfold validateSplit
  cases context.checkSplit with
  | none => rfl
  | strict =>
      simp only [Checked.bind_eq_ok, Checked.ensure_eq_ok]
      refine ⟨(), by omega, ?_⟩
      split
      · simp
      · next partly =>
          -- A chunk that is not full is the last one, and the data ends inside it.
          have last : min (offset / maxChunkSize * maxChunkSize + maxChunkSize) size = size := by
            omega
          have place : size / maxChunkSize = offset / maxChunkSize :=
            Nat.div_eq_of_lt_le (by omega) (by rw [Nat.succ_mul]; omega)
          have rest := Nat.div_add_mod size maxChunkSize
          rw [Nat.mul_comm, place] at rest
          rw [last, sized, if_pos rfl]
          simp only [decide_eq_true_eq, place]
          exact ⟨by omega, le_rfl⟩
  | relaxed =>
      have shifted : addU128 context.leftShift (offset / maxChunkSize * maxChunkSize) =
          offset / maxChunkSize * maxChunkSize := by
        rw [unshifted, addU128, Nat.zero_add, Nat.mod_eq_of_lt (by omega)]
      simp only [Checked.ensure_eq_ok, shifted]
      split <;> simp [multiple]

/-- A chunk has bytes, has no more than its size, and lies inside the data. -/
theorem chunk_bounds {unit offset size : Nat} (positive : 0 < unit) (inside : offset < size) :
    offset / unit * unit < min (offset / unit * unit + unit) size ∧
      min (offset / unit * unit + unit) size - offset / unit * unit ≤ unit ∧
      min (offset / unit * unit + unit) size ≤ size := by
  have below := Nat.div_mul_le_self offset unit
  omega

/-- The loop over the branches and the checks of the leaf, where the walk ends in a chunk. -/
theorem walkDataPath_of_arrives {suite : HashSuite} {root dataHash : FixedBytes 32}
    {size offset left finish : Nat} {path : Bytes} {context : DataContext} {walk : DataWalk}
    (inside : offset < size) (small : size < 2 ^ 64) (unshifted : context.leftShift = 0)
    (fresh : context.isRightmost = none) (nonempty : left < finish)
    (short : finish - left ≤ maxChunkSize) (fits : finish ≤ size)
    (allowed : ∀ isRightmost, validateSplit finish left finish isRightmost context = .ok ())
    (arrives : Arrives suite (DataWalk.turn offset) ⟨⟨0, size⟩, none⟩ root path walk dataHash
      (note finish))
    (bounds : walk.bounds = ⟨left, finish⟩) :
    walkDataPath suite root offset 0 size path context = .ok { start := left, finish, dataHash } := by
  obtain ⟨branches, rfl, followed⟩ := arrives.walked
  have walked := (@walkBranches_eq_ok _ suite "data_path" _ _ _ _ _ _
    (dataHash.val ++ (note finish).val)).mpr
    ⟨branches, rfl, by simp [leafSize, hashSize, noteSize], followed⟩
  have taken : (dataHash.val ++ (note finish).val).take hashSize = dataHash.val :=
    List.take_left' dataHash.property
  have dropped : (dataHash.val ++ (note finish).val).drop hashSize = (note finish).val :=
    List.drop_left' dataHash.property
  have plain : ∀ value, value < 2 ^ 128 → addU128 context.leftShift value = value := by
    intro value bound
    rw [unshifted, addU128, Nat.zero_add, Nat.mod_eq_of_lt bound]
  have successor : addU128 left 1 = left + 1 := by
    rw [addU128, Nat.mod_eq_of_lt (by omega)]
  have ends : max (min finish finish) (left + 1) = finish := by
    omega
  simp only [walkDataPath, Checked.bind_eq_ok, Checked.ensure_eq_ok, Checked.pure_eq_ok,
    toFixed_eq_ok, fresh]
  refine ⟨(), by omega, _, walked, (), by simp [leafSize, hashSize, noteSize], dataHash, taken,
    finish, by rw [dropped]; exact noteToU128_note (by omega), (), by rw [dropped], ?_⟩
  simp only [bounds, successor, ends]
  rw [plain left (by omega), plain finish (by omega)]
  exact ⟨(), fun _ => ⟨short, short⟩, (), allowed _, (), nonempty, rfl⟩

/-- A path that does not start with a zero hash is not taken for a rebase. -/
theorem walkRebasedDataPath_plain {suite : HashSuite} {root : FixedBytes 32}
    {target left right : Nat} {path : Bytes} {context : DataContext}
    (marked : 128 ≤ path.length → (path.take 32).all (· = 0) = false) :
    walkRebasedDataPath suite (some root) target left right path context =
      walkDataPath suite root target left right path context := by
  rw [walkRebasedDataPath, if_neg]
  · rfl
  · rintro ⟨_, long, zeros⟩
    rw [marked long] at zeros
    cases zeros

/-- No node of a tree is taken for a rebase where no hash of it is zero. -/
theorem treePath_unmarked {suite : HashSuite} {tree : OffsetTree Bytes} {target : Nat}
    {payload : FixedBytes 32} {finish : Nat}
    (selected : tree.select target = (payload.val, finish))
    (nonzero : ∀ hash ∈ tree.hashes (nodeHash suite) note, hash.val ≠ List.replicate 32 0)
    (long : 128 ≤ (treePath suite tree target).length) :
    ((treePath suite tree target).take 32).all (· = 0) = false := by
  cases tree with
  | leaf payload' finish' =>
      cases selected
      simp [treePath, OffsetTree.branches, OffsetTree.select] at long
  | branch left right =>
      have first : (treePath suite (.branch left right) target).take 32 =
          (left.hash (nodeHash suite) note).val := by
        rw [treePath, OffsetTree.branches, List.flatMap_cons, List.append_assoc]
        exact (PathBranch.slices _ _).1
      have member : left.hash (nodeHash suite) note ∈
          (OffsetTree.branch left right).hashes (nodeHash suite) note :=
        List.mem_cons_of_mem _ (List.mem_append_left _ (OffsetTree.hash_mem_hashes _ _ left))
      rw [first]
      by_contra zeros
      refine nonzero _ member (List.eq_replicate_iff.mpr
        ⟨(left.hash (nodeHash suite) note).property, fun byte inside => ?_⟩)
      have all : ∀ byte ∈ (left.hash (nodeHash suite) note).val, byte = 0 := by simpa using zeros
      exact all byte inside

/-- For every offset of inline data the tree behind the recomputed root gives a path that is
accepted at every absolute offset, and so under every rule of splitting, with the chunk that holds
the offset.  Where the data fills its chunks, the empty leaf behind them is never chosen. -/
theorem inline_tree_complete (suite : HashSuite) (data : Bytes) (small : data.length < 2 ^ 64) :
    ∃ (tree : OffsetTree Bytes) (root : FixedBytes 32),
      inlineTree suite data = some tree ∧
      inlineDataRoot suite data = .ok root ∧
      tree.hash (nodeHash suite) note = root ∧
      ((∀ hash ∈ tree.hashes (nodeHash suite) note, hash.val ≠ List.replicate 32 0) →
        ∀ offset < data.length, ∀ absoluteOffset,
          validateDataPath suite root data.length offset absoluteOffset
              (treePath suite tree offset) =
            .ok { start := offset / maxChunkSize * maxChunkSize
                  finish := min (offset / maxChunkSize * maxChunkSize + maxChunkSize) data.length
                  dataHash := suite.sha256 [inlineChunk data (offset / maxChunkSize)] }) ∧
      ∀ offset < data.length, tree.position offset = offset / maxChunkSize ∧
        (maxChunkSize ∣ data.length → tree.position offset + 1 < tree.leaves.length) := by
  obtain ⟨tree, built⟩ := exists_inlineTree suite data
  have rooted : inlineDataRoot suite data = .ok (tree.hash (nodeHash suite) note) := by
    rw [inlineDataRoot_eq, built]
    rfl
  refine ⟨tree, _, built, rooted, rfl, ?_, ?_⟩
  · intro nonzero offset inside absoluteOffset
    obtain ⟨walk, arrives, bounds⟩ := arrives_inlineTree built small inside
    have selected := select_inlineTree built inside
    have long : leafSize ≤ (treePath suite tree offset).length := by
      rw [treePath, selected, List.length_append, List.length_append]
      simp [leafSize, hashSize, noteSize]
    simp only [validateDataPath, Checked.bind_eq_ok, Checked.ensure_eq_ok]
    refine ⟨(), by omega, (), inside, (), long, ?_⟩
    rw [walkRebasedDataPath_plain (treePath_unmarked selected nonzero)]
    obtain ⟨nonempty, short, fits⟩ := chunk_bounds (show 0 < maxChunkSize by decide) inside
    exact walkDataPath_of_arrives inside small rfl rfl nonempty short fits
      (fun isRightmost => validateSplit_inline inside small isRightmost rfl rfl) arrives bounds
  · intro offset inside
    have place := position_inlineTree built inside
    refine ⟨place, fun divides => ?_⟩
    rw [place, inlineTree_leaves built]
    simp only [inlineLeaves, List.length_map, List.length_range]
    have less : offset / maxChunkSize < data.length / maxChunkSize :=
      Nat.div_lt_of_lt_mul (by rwa [Nat.mul_div_cancel' divides])
    omega

/-- A hash that tells lengths apart, for data that is too long to be hashed here. -/
def lengthSuite : HashSuite where
  digest256 message := ⟨1 :: bigEndian 31 message.length, by simp⟩
  digest384 message := ⟨1 :: bigEndian 47 message.length, by simp⟩

theorem hashes_lengthSuite (tree : OffsetTree Bytes) :
    ∀ hash ∈ tree.hashes (nodeHash lengthSuite) note, hash.val.head? = some 1 := by
  induction tree with
  | leaf payload finish =>
      intro hash member
      rw [List.mem_singleton.mp member]
      rfl
  | branch left right fromLeft fromRight =>
      intro hash member
      rw [OffsetTree.hashes, List.mem_cons, List.mem_append] at member
      rcases member with rfl | inside | inside
      · rfl
      · exact fromLeft hash inside
      · exact fromRight hash inside

/-- Three bytes of data, past the threshold of rebasing, and data of two chunks. -/
theorem inline_tree_complete_sample :
    (∃ (tree : OffsetTree Bytes) (root : FixedBytes 32),
      inlineTree sha2Suite [1, 2, 3] = some tree ∧
      inlineDataRoot sha2Suite [1, 2, 3] = .ok root ∧
      validateDataPath sha2Suite root 3 2 merkleRebaseSupportThreshold
          (treePath sha2Suite tree 2) =
        .ok { start := 0, finish := 3, dataHash := sha2Suite.sha256 [[1, 2, 3]] }) ∧
    ∃ (tree : OffsetTree Bytes) (root : FixedBytes 32),
      inlineTree lengthSuite (List.replicate 262145 7) = some tree ∧
      tree.position 5 = 0 ∧ tree.position 262144 = 1 ∧
      validateDataPath lengthSuite root 262145 5 0 (treePath lengthSuite tree 5) =
        .ok { start := 0
              finish := 262144
              dataHash := lengthSuite.sha256 [List.replicate 262144 7] } ∧
      validateDataPath lengthSuite root 262145 262144 0 (treePath lengthSuite tree 262144) =
        .ok { start := 262144, finish := 262145, dataHash := lengthSuite.sha256 [[7]] } := by
  constructor
  · obtain ⟨tree, root, built, rooted, _, accepted, _⟩ :=
      inline_tree_complete sha2Suite [1, 2, 3] (by decide)
    have single : ∀ suite, inlineTree suite [1, 2, 3] =
        some (.leaf (suite.sha256 [[1, 2, 3]]).val 3) := by
      intro suite
      rw [inlineTree, reduce]
      rfl
    have chunk : inlineChunk [1, 2, 3] (2 / maxChunkSize) = [1, 2, 3] := by decide
    have nonzero : (hashLeaf sha2Suite (sha2Suite.sha256 [[1, 2, 3]]).val (note 3).val).val ≠
        List.replicate 32 0 := by
      decide +kernel
    obtain rfl := Option.some.inj ((single sha2Suite).symm.trans built)
    have result := accepted (fun hash member => by
      rw [OffsetTree.hashes, List.mem_singleton] at member
      rw [member]
      exact nonzero) 2 (by decide) merkleRebaseSupportThreshold
    rw [chunk] at result
    exact ⟨_, root, built, rooted, result⟩
  · have length : (List.replicate 262145 (7 : UInt8)).length = 262145 := List.length_replicate
    obtain ⟨tree, root, built, _, _, accepted, places⟩ :=
      inline_tree_complete lengthSuite (List.replicate 262145 7) (by rw [length]; decide)
    rw [length] at accepted places
    have proved := accepted fun hash member zeros => by
      have marked := hashes_lengthSuite tree hash member
      rw [zeros] at marked
      cases marked
    have first : inlineChunk (List.replicate 262145 (7 : UInt8)) (5 / maxChunkSize) =
        List.replicate 262144 7 := by
      rw [inlineChunk, length, List.take_replicate, List.drop_replicate]
      exact congrArg (List.replicate · (7 : UInt8)) (show _ = 262144 by decide)
    have second : inlineChunk (List.replicate 262145 (7 : UInt8)) (262144 / maxChunkSize) = [7] := by
      rw [inlineChunk, length, List.take_replicate, List.drop_replicate]
      exact congrArg (List.replicate · (7 : UInt8)) (show _ = 1 by decide)
    have front := proved 5 (by decide) 0
    have behind := proved 262144 (by decide) 0
    rw [first] at front
    rw [second] at behind
    exact ⟨tree, root, built, (places 5 (by decide)).1, (places 262144 (by decide)).1, front, behind⟩

end ArIoGateway
