import Mathlib.Logic.Relation
import ArIoGateway.Foundation.Machine
import ArIoGateway.MerklePath

/-!
# The walk of a data path in machine words

The check of a data path as it is computed: with a cursor into the path, slices, and sums and
differences of words.  No path makes it panic for data that leave room for one chunk in a `u128`, and
through all rebases the target stays inside the bounds and means the same offset of the transaction.
-/

namespace ArIoGateway
namespace DataPathWalk

open MerkleWalk Octets Machine

/-- The variables of the loop of `walk_data_path`. -/
structure Position where
  walk : DataWalk
  currentHash : FixedBytes 32
  cursor : Nat

/-- One round of the loop of `walk_data_path`. -/
def branchStep (suite : HashSuite) (target : Nat) (path : Bytes) (position : Position) :
    Machine Position := do
  let finish ← add 64 position.cursor branchSize
  check (Checked.ensure (finish ≤ path.length) "truncated data_path branch")
  let first ← add 64 position.cursor hashSize
  let second ← add 64 position.cursor (hashSize * 2)
  let leftHash ← fixed hashSize (← slice path position.cursor first)
  let rightHash ← fixed hashSize (← slice path first second)
  let note ← slice path second finish
  check (Checked.ensure (hashBranch suite leftHash.val rightHash.val note = position.currentHash)
    "invalid data_path branch")
  let boundary ← check (noteToU128 note)
  let turned := position.walk.turn target boundary
  pure ⟨turned.2, if turned.1 then leftHash else rightHash, finish⟩

/-- The loop of `walk_data_path`. -/
def walkLoop (suite : HashSuite) (target : Nat) (path : Bytes) :
    (rounds : Nat) → Position → Machine Position
  | 0, _ => .error .panicked
  | rounds + 1, position => do
      let left ← sub path.length position.cursor
      if leafSize < left then do
        let next ← branchStep suite target path position
        walkLoop suite target path rounds next
      else pure position

/-- `validate_split`. -/
def validateSplit (finish left right : Nat) (isRightmost : Option Bool) (context : DataContext) :
    Machine Unit :=
  match context.checkSplit with
  | .none => pure ()
  | .strict => do
      check (Checked.ensure (left ≤ finish) "invalid strict split bounds")
      let size ← sub finish left
      let border ← mul 128 (right / maxChunkSize) maxChunkSize
      let double ← mul 128 maxChunkSize 2
      let valid : Bool :=
        if size = maxChunkSize then left % maxChunkSize = 0
        else if finish = context.dataSize then right % maxChunkSize ≠ 0 ∧ left ≤ border
        else left % maxChunkSize = 0 ∧ maxChunkSize < context.dataSize - left ∧
          context.dataSize - left < double
      check (Checked.ensure (valid = true) "data_path violates strict data split")
  | .relaxed => do
      let shiftedLeft ← add 128 context.leftShift left
      let shiftedEnd ← add 128 context.leftShift finish
      let nextBorder ← add 128 (shiftedLeft / maxChunkSize) 1
      let valid : Bool :=
        if isRightmost = some true then
          shiftedLeft % maxChunkSize = 0 ∨
            (nextBorder = shiftedEnd / maxChunkSize ∧ shiftedEnd % maxChunkSize ≠ 0)
        else shiftedLeft % maxChunkSize = 0
      check (Checked.ensure (valid = true) "data_path violates relaxed data split")

/-- The arguments of `walk_rebased_data_path`. -/
structure Frame where
  root : Option (FixedBytes 32)
  target : Nat
  leftBound : Nat
  rightBound : Nat
  path : Bytes
  context : DataContext

/-- Where the loop of `walk_data_path` starts. -/
def Frame.position (frame : Frame) (root : FixedBytes 32) : Position :=
  ⟨⟨⟨frame.leftBound, frame.rightBound⟩, frame.context.isRightmost⟩, root, 0⟩

/-- `walk_data_path`. -/
def walkDataPath (suite : HashSuite) (root : FixedBytes 32) (frame : Frame) : Machine DataPath := do
  check (Checked.ensure (0 < frame.rightBound) "data_path has empty bounds")
  let last ← walkLoop suite frame.target frame.path (frame.path.length + 1) (frame.position root)
  let finish ← add 64 last.cursor leafSize
  check (Checked.ensure (finish = frame.path.length) "truncated data_path leaf")
  let middle ← add 64 last.cursor hashSize
  let dataHash ← fixed hashSize (← slice frame.path last.cursor middle)
  let note ← slice frame.path middle finish
  let leafEnd ← check (noteToU128 note)
  check (Checked.ensure (hashLeaf suite dataHash.val note = last.currentHash)
    "invalid data_path leaf")
  let left := last.walk.bounds.left
  let right := last.walk.bounds.right
  check (Checked.ensure (frame.context.checkBorders = true →
      leafEnd - left ≤ maxChunkSize ∧ right - left ≤ maxChunkSize)
    "data_path violates chunk borders")
  validateSplit leafEnd left right last.walk.isRightmost frame.context
  let start ← add 128 frame.context.leftShift left
  let forward ← add 128 left 1
  let finish ← add 128 frame.context.leftShift (max (min right leafEnd) forward)
  check (Checked.ensure (start < finish) "data_path made no forward progress")
  pure { start, finish, dataHash }

/-- The context below a rebase. -/
def rebasedContext (context : DataContext) (leftShift rebaseDepth : Nat) : DataContext :=
  { context with leftShift, isRightmost := none, rebaseDepth }

/-- The call on the side of a rebase that holds the target. -/
def rebaseAt (frame : Frame) (left right : FixedBytes 32) (boundary : Nat) (path : Bytes)
    (depth : Nat) : Machine Frame :=
  if frame.target < boundary then do
    let adjusted := min frame.rightBound boundary
    check (Checked.ensure (frame.leftBound ≤ adjusted) "invalid left rebase boundary")
    let target ← check
      (Checked.context (checkedSub frame.target frame.leftBound) "rebase target underflow")
    let rightBound ← sub adjusted frame.leftBound
    let shift ← add 128 frame.context.leftShift frame.leftBound
    pure ⟨some left, target, 0, rightBound, path, rebasedContext frame.context shift depth⟩
  else do
    let adjusted := max frame.leftBound boundary
    check (Checked.ensure (adjusted ≤ frame.rightBound) "invalid right rebase boundary")
    let target ← check
      (Checked.context (checkedSub frame.target adjusted) "rebase target underflow")
    let rightBound ← sub frame.rightBound adjusted
    let shift ← add 128 frame.context.leftShift adjusted
    pure ⟨some right, target, 0, rightBound, path, rebasedContext frame.context shift depth⟩

/-- The arguments of the call that `walk_rebased_data_path` makes of itself at a rebase. -/
def rebase (suite : HashSuite) (frame : Frame) : Machine Frame := do
  check (Checked.ensure (frame.context.rebaseDepth < 64) "data_path rebasing depth exceeded")
  let left ← fixed 32 (← slice frame.path 32 64)
  let right ← fixed 32 (← slice frame.path 64 96)
  let note ← slice frame.path 96 128
  check (match frame.root with
    | some root =>
        Checked.ensure (hashBranch suite left.val right.val note = root) "invalid rebase branch"
    | none => pure ())
  let boundary ← check (noteToU128 note)
  let path ← slice frame.path 128 frame.path.length
  let depth ← add 8 frame.context.rebaseDepth 1
  rebaseAt frame left right boundary path depth

/-- The next call of `walk_rebased_data_path`, when the path starts with a rebase. -/
def rebaseStep (suite : HashSuite) (frame : Frame) : Machine (Option Frame) :=
  if frame.context.allowRebase = true ∧ 128 ≤ frame.path.length then do
    let zeros ← slice frame.path 0 32
    if zeros.all (· = 0) = true then some <$> rebase suite frame else pure none
  else pure none

/-- `walk_rebased_data_path`, with a bound on the depth of the recursion. -/
def walkRebasedDataPath (suite : HashSuite) : (calls : Nat) → Frame → Machine DataPath
  | 0, _ => .error .panicked
  | calls + 1, frame => do
      match ← rebaseStep suite frame with
      | some next => walkRebasedDataPath suite calls next
      | none => do
          let root ← check (Checked.context frame.root "missing data_path root")
          walkDataPath suite root frame

/-- The first call of `walk_rebased_data_path`. -/
def initialFrame (dataRoot : FixedBytes 32) (dataSize relativeOffset absoluteOffset : Nat)
    (path : Bytes) : Frame where
  root := some dataRoot
  target := relativeOffset
  leftBound := 0
  rightBound := dataSize
  path := path
  context :=
    { dataSize
      isRightmost := none
      leftShift := 0
      checkBorders := (dataPathRules absoluteOffset).1
      checkSplit := (dataPathRules absoluteOffset).2.1
      allowRebase := (dataPathRules absoluteOffset).2.2
      rebaseDepth := 0 }

/-- `validate_data_path`. -/
def validateDataPath (suite : HashSuite) (dataRoot : FixedBytes 32)
    (dataSize relativeOffset absoluteOffset : Nat) (path : Bytes) : Machine DataPath := do
  check (Checked.ensure (0 < dataSize) "data_path has zero data size")
  check (Checked.ensure (relativeOffset < dataSize) "data_path offset is outside transaction")
  check (Checked.ensure (leafSize ≤ path.length) "data_path is too short")
  walkRebasedDataPath suite 65
    (initialFrame dataRoot dataSize relativeOffset absoluteOffset path)

theorem toFixed_of_length {width : Nat} {bytes : Bytes} (fits : bytes.length = width) :
    toFixed width bytes = .ok ⟨bytes, fits⟩ := dif_pos fits

/-- A slice of a path is one of what is left at a cursor. -/
theorem slice_at {path : Bytes} {cursor start finish : Nat} (offset width : Nat)
    (begins : start = cursor + offset) (ends : finish = start + width)
    (inside : finish ≤ path.length) :
    slice path start finish = .ok (((path.drop cursor).drop offset).take width) ∧
      (((path.drop cursor).drop offset).take width).length = width := by
  subst begins ends
  rw [slice_of_le (Nat.le_add_right _ _) inside, List.drop_drop, Nat.add_sub_cancel_left,
    List.length_take, List.length_drop]
  exact ⟨rfl, by omega⟩

/-- What a walk keeps: the target is inside the bounds, which only shrink. -/
def Position.Within (position : Position) (target left right : Nat) : Prop :=
  left ≤ position.walk.bounds.left ∧ position.walk.bounds.left ≤ target ∧
    target < position.walk.bounds.right ∧ position.walk.bounds.right ≤ right

theorem turn_within {walk : DataWalk} {target left right : Nat} (boundary : Nat)
    (within : left ≤ walk.bounds.left ∧ walk.bounds.left ≤ target ∧ target < walk.bounds.right ∧
      walk.bounds.right ≤ right) :
    left ≤ (walk.turn target boundary).2.bounds.left ∧
      (walk.turn target boundary).2.bounds.left ≤ target ∧
      target < (walk.turn target boundary).2.bounds.right ∧
      (walk.turn target boundary).2.bounds.right ≤ right := by
  simp only [DataWalk.turn, Bounds.turn]
  split
  · simp only
    omega
  · simp only
    omega

/-- The loop does what the loop over the rest of the path does, and it keeps the bounds. -/
theorem walkLoop_agrees {suite : HashSuite} {target left right rounds : Nat} {path : Bytes}
    {position : Position} (short : path.length < 2 ^ 63) (inside : position.cursor ≤ path.length)
    (enough : path.length - position.cursor < rounds)
    (within : position.Within target left right) :
    Agrees (fun last found => found = (last.walk, last.currentHash, path.drop last.cursor) ∧
        last.cursor ≤ path.length ∧ last.Within target left right)
      (walkLoop suite target path rounds position)
      (walkBranches suite "data_path" (DataWalk.turn target) position.walk position.currentHash
        (path.drop position.cursor)) := by
  induction rounds generalizing position with
  | zero => omega
  | succ rounds induction =>
      rw [walkLoop, sub_of_le inside, ok_bind, walkBranches, List.length_drop]
      by_cases more : leafSize < path.length - position.cursor
      · rw [if_pos more, if_pos more, branchStep]
        simp only [bind_assoc]
        rw [add_of_lt (by simp only [branchSize, hashSize, noteSize] at *; omega), ok_bind]
        refine Agrees.ensure ?_ rfl fun fits => ?_
        · simp only [branchSize, hashSize, noteSize] at *
          omega
        simp only [branchSize, hashSize, noteSize, leafSize] at fits more
        obtain ⟨first, firstWidth⟩ := @slice_at path position.cursor position.cursor
          (position.cursor + hashSize) 0 hashSize rfl rfl (by simp only [hashSize]; omega)
        obtain ⟨second, secondWidth⟩ := @slice_at path position.cursor (position.cursor + hashSize)
          (position.cursor + hashSize * 2) hashSize hashSize rfl (by simp only [hashSize])
          (by simp only [hashSize]; omega)
        obtain ⟨third, thirdWidth⟩ := @slice_at path position.cursor
          (position.cursor + hashSize * 2) (position.cursor + branchSize) (hashSize * 2) noteSize rfl
          (by simp only [hashSize, branchSize, noteSize])
          (by simp only [hashSize, branchSize, noteSize]; omega)
        rw [List.drop_zero] at first firstWidth
        rw [add_of_lt (by simp only [hashSize]; omega), ok_bind,
          add_of_lt (by simp only [hashSize]; omega), ok_bind, first, ok_bind,
          fixed_of_length firstWidth, ok_bind, second, ok_bind, fixed_of_length secondWidth, ok_bind,
          third, ok_bind, toFixed_of_length firstWidth, Checked.ok_bind,
          toFixed_of_length secondWidth, Checked.ok_bind]
        refine Agrees.ensure Iff.rfl rfl fun _ => ?_
        refine (Agrees.of_check _).bind fun boundary _ related => ?_
        obtain ⟨same, _⟩ := related
        subst same
        have shift : (path.drop position.cursor).drop branchSize =
            path.drop (position.cursor + branchSize) := List.drop_drop
        rw [pure_bind, shift]
        exact induction (by simp only [branchSize, hashSize, noteSize]; omega)
          (by simp only [branchSize, hashSize, noteSize]; omega) (turn_within boundary within)
      · rw [if_neg more, if_neg more]
        exact .returns ⟨rfl, inside, within⟩

theorem addU128_of_lt {left right : Nat} (fits : left + right < 2 ^ 128) :
    addU128 left right = left + right := Nat.mod_eq_of_lt fits

theorem validateSplit_agrees {finish left right : Nat} {isRightmost : Option Bool}
    {context : DataContext} (rightFits : right < 2 ^ 128)
    (relaxed : context.checkSplit = .relaxed →
      context.leftShift + left < 2 ^ 128 ∧ context.leftShift + finish < 2 ^ 128) :
    Agrees (fun _ _ => True) (validateSplit finish left right isRightmost context)
      (ArIoGateway.validateSplit finish left right isRightmost context) := by
  have done {first : Checked Unit} : Agrees (fun _ _ => True) (check first) first :=
    (Agrees.of_check first).mono fun _ _ _ => trivial
  rw [validateSplit, ArIoGateway.validateSplit]
  cases kind : context.checkSplit with
  | none => exact .returns trivial
  | strict =>
      refine Agrees.ensure Iff.rfl rfl fun ordered => ?_
      have border : right / maxChunkSize * maxChunkSize < 2 ^ 128 :=
        lt_of_le_of_lt (Nat.div_mul_le_self right maxChunkSize) rightFits
      rw [sub_of_le ordered, ok_bind, mul_of_lt border, ok_bind, mul_of_lt (by decide), ok_bind]
      exact done
  | relaxed =>
      obtain ⟨leftFits, finishFits⟩ := relaxed kind
      have next : (context.leftShift + left) / maxChunkSize + 1 < 2 ^ 128 := by
        have := Nat.div_le_self (context.leftShift + left) maxChunkSize
        have : (context.leftShift + left) / maxChunkSize ≤ 2 ^ 128 / maxChunkSize :=
          Nat.div_le_div_right leftFits.le
        have : 2 ^ 128 / maxChunkSize + 1 < 2 ^ 128 := by decide
        omega
      simp only [addU128_of_lt leftFits, addU128_of_lt finishFits]
      rw [add_of_lt leftFits, ok_bind, add_of_lt finishFits, ok_bind, add_of_lt next, ok_bind]
      exact done

/-- What every call of the walk knows: shift and target make up the offset that was asked for, the
target is inside the bounds, and these are inside the data. -/
structure Frame.Aligned (frame : Frame) (relativeOffset dataSize : Nat) : Prop where
  shifted : frame.context.leftShift + frame.target = relativeOffset
  lower : frame.leftBound ≤ frame.target
  upper : frame.target < frame.rightBound
  inside : frame.context.leftShift + frame.rightBound ≤ dataSize
  borders : frame.context.checkSplit = .relaxed → frame.context.checkBorders = true

/-- What is promised of an accepted place. -/
structure Placed (result : DataPath) (relativeOffset dataSize : Nat) (checkBorders : Bool) :
    Prop where
  starts : result.start ≤ relativeOffset
  forward : result.start < result.finish
  inside : result.finish ≤ dataSize
  borders : checkBorders = true → result.finish - result.start ≤ maxChunkSize

/-- Below the last rebase the machine agrees with the check, and an accepted place holds the
offset. -/
theorem walkDataPath_agrees {suite : HashSuite} {root : FixedBytes 32} {frame : Frame}
    {relativeOffset dataSize : Nat} (aligned : frame.Aligned relativeOffset dataSize)
    (room : dataSize + maxChunkSize < 2 ^ 128) (short : frame.path.length < 2 ^ 63) :
    Agrees (fun result value => result = value ∧
        Placed result relativeOffset dataSize frame.context.checkBorders)
      (walkDataPath suite root frame)
      (ArIoGateway.walkDataPath suite root frame.target frame.leftBound frame.rightBound frame.path
        frame.context) := by
  have lower := aligned.lower
  have upper := aligned.upper
  have shifted := aligned.shifted
  have inside := aligned.inside
  rw [walkDataPath, ArIoGateway.walkDataPath]
  refine Agrees.ensure Iff.rfl rfl fun _ => ?_
  have loop := @walkLoop_agrees suite frame.target frame.leftBound frame.rightBound
    (frame.path.length + 1) frame.path (frame.position root) short (Nat.zero_le _)
    (Nat.lt_succ_of_le (Nat.sub_le _ _)) ⟨le_rfl, lower, upper, le_rfl⟩
  refine loop.bind fun last found related => ?_
  obtain ⟨same, before, within⟩ := related
  subst same
  obtain ⟨leftLow, leftHigh, rightLow, rightHigh⟩ := within
  simp only
  rw [add_of_lt (by simp only [leafSize, hashSize, noteSize]; omega), ok_bind]
  refine Agrees.ensure ?_ rfl fun whole => ?_
  · rw [List.length_drop]
    simp only [leafSize, hashSize, noteSize]
    omega
  obtain ⟨first, firstWidth⟩ := @slice_at frame.path last.cursor last.cursor
    (last.cursor + hashSize) 0 hashSize rfl rfl (by simp only [hashSize, leafSize] at *; omega)
  obtain ⟨second, secondWidth⟩ := @slice_at frame.path last.cursor (last.cursor + hashSize)
    (last.cursor + leafSize) hashSize noteSize rfl (by simp only [hashSize, leafSize, Nat.add_assoc])
    (by omega)
  have note : ((frame.path.drop last.cursor).drop hashSize).take noteSize =
      (frame.path.drop last.cursor).drop hashSize := by
    apply List.take_of_length_le
    rw [List.length_drop, List.length_drop]
    simp only [hashSize, leafSize, noteSize] at *
    omega
  rw [List.drop_zero] at first firstWidth
  rw [add_of_lt (by simp only [hashSize]; omega), ok_bind, first, ok_bind,
    fixed_of_length firstWidth, ok_bind, second, ok_bind, toFixed_of_length firstWidth,
    Checked.ok_bind, note]
  refine (Agrees.of_check _).bind fun leafEnd _ related => ?_
  obtain ⟨same, read⟩ := related
  subst same
  have leafFits := noteToU128_lt read
  refine Agrees.ensure Iff.rfl rfl fun _ => ?_
  refine Agrees.ensure Iff.rfl rfl fun borders => ?_
  refine (validateSplit_agrees (by omega) fun kind => ?_).bind fun _ _ _ => ?_
  · have := (borders (aligned.borders kind)).1
    omega
  generalize last.walk.bounds.left = left at *
  generalize last.walk.bounds.right = right at *
  have forward : max (min right leafEnd) (left + 1) ≤ right := by omega
  have one : left + 1 < 2 ^ 128 := by omega
  have low : frame.context.leftShift + left < 2 ^ 128 := by omega
  have high : frame.context.leftShift + max (min right leafEnd) (left + 1) < 2 ^ 128 := by omega
  rw [addU128_of_lt one, addU128_of_lt low, addU128_of_lt high, add_of_lt low, ok_bind,
    add_of_lt one, ok_bind, add_of_lt high, ok_bind]
  refine Agrees.ensure Iff.rfl rfl fun _ => .returns ⟨rfl, ?_, ?_, ?_, fun check => ?_⟩
  · simp only
    omega
  · simp only
    omega
  · simp only
    omega
  · have := borders check
    simp only [maxChunkSize] at *
    omega

/-- The call on one side of a rebase, as the check makes it. -/
def checkedRebaseAt (frame : Frame) (left right : FixedBytes 32) (boundary : Nat) (path : Bytes)
    (depth : Nat) : Checked Frame :=
  if frame.target < boundary then do
    let adjusted := min frame.rightBound boundary
    Checked.ensure (frame.leftBound ≤ adjusted) "invalid left rebase boundary"
    let target ← Checked.context (checkedSub frame.target frame.leftBound) "rebase target underflow"
    pure ⟨some left, target, 0, adjusted - frame.leftBound, path, rebasedContext frame.context
      (addU128 frame.context.leftShift frame.leftBound) depth⟩
  else do
    let adjusted := max frame.leftBound boundary
    Checked.ensure (adjusted ≤ frame.rightBound) "invalid right rebase boundary"
    let target ← Checked.context (checkedSub frame.target adjusted) "rebase target underflow"
    pure ⟨some right, target, 0, frame.rightBound - adjusted, path, rebasedContext frame.context
      (addU128 frame.context.leftShift adjusted) depth⟩

/-- The next call at a rebase, as the check makes it. -/
def checkedRebase (suite : HashSuite) (frame : Frame) : Checked Frame := do
  Checked.ensure (frame.context.rebaseDepth < 64) "data_path rebasing depth exceeded"
  let left ← toFixed 32 ((frame.path.drop 32).take 32)
  let right ← toFixed 32 ((frame.path.drop 64).take 32)
  let note := (frame.path.drop 96).take 32
  (match frame.root with
    | some root =>
        Checked.ensure (hashBranch suite left.val right.val note = root) "invalid rebase branch"
    | none => pure ())
  let boundary ← noteToU128 note
  checkedRebaseAt frame left right boundary (frame.path.drop 128) (frame.context.rebaseDepth + 1)

/-- Whether a call starts with a rebase. -/
abbrev Frame.Rebased (frame : Frame) : Prop :=
  frame.context.allowRebase = true ∧ 128 ≤ frame.path.length ∧
    (frame.path.take 32).all (· = 0) = true

theorem walkRebasedDataPath_of_rebased {suite : HashSuite} {frame : Frame}
    (rebased : frame.Rebased) :
    ArIoGateway.walkRebasedDataPath suite frame.root frame.target frame.leftBound frame.rightBound
        frame.path frame.context =
      checkedRebase suite frame >>= fun next =>
        ArIoGateway.walkRebasedDataPath suite next.root next.target next.leftBound next.rightBound
          next.path next.context := by
  rw [ArIoGateway.walkRebasedDataPath, if_pos rebased, checkedRebase]
  simp only [bind_assoc]
  refine bind_congr fun _ => bind_congr fun left => bind_congr fun right => ?_
  cases frame.root with
  | none =>
      rw [pure_bind]
      refine bind_congr fun boundary => ?_
      rw [checkedRebaseAt]
      split
      · simp only [pure_bind, bind_assoc]
        rfl
      · simp only [pure_bind, bind_assoc]
        rfl
  | some root =>
      refine bind_congr fun _ => bind_congr fun boundary => ?_
      rw [checkedRebaseAt]
      split
      · simp only [pure_bind, bind_assoc]
        rfl
      · simp only [pure_bind, bind_assoc]
        rfl

/-- What a rebase leaves: an aligned call one level deeper, on the path behind it. -/
structure Frame.Below (next frame : Frame) (relativeOffset dataSize : Nat) : Prop where
  aligned : next.Aligned relativeOffset dataSize
  path_eq : next.path = frame.path.drop 128
  depth_eq : next.context.rebaseDepth = frame.context.rebaseDepth + 1
  depth_le : next.context.rebaseDepth ≤ 64
  borders_eq : next.context.checkBorders = frame.context.checkBorders

theorem rebaseAt_agrees {frame : Frame} {relativeOffset dataSize : Nat}
    (aligned : frame.Aligned relativeOffset dataSize) (room : dataSize + maxChunkSize < 2 ^ 128)
    (left right : FixedBytes 32) (boundary : Nat) (shallow : frame.context.rebaseDepth < 64) :
    Agrees (fun next value => next = value ∧ next.Below frame relativeOffset dataSize)
      (rebaseAt frame left right boundary (frame.path.drop 128) (frame.context.rebaseDepth + 1))
      (checkedRebaseAt frame left right boundary (frame.path.drop 128)
        (frame.context.rebaseDepth + 1)) := by
  have lower := aligned.lower
  have upper := aligned.upper
  have shifted := aligned.shifted
  have inside := aligned.inside
  rw [rebaseAt, checkedRebaseAt]
  by_cases before : frame.target < boundary
  · rw [if_pos before, if_pos before]
    refine Agrees.ensure Iff.rfl rfl fun ordered => ?_
    have fits : frame.context.leftShift + frame.leftBound < 2 ^ 128 := by omega
    rw [checkedSub, if_pos lower, sub_of_le ordered, add_of_lt fits, addU128_of_lt fits]
    exact .returns ⟨rfl, ⟨by simp only [rebasedContext]; omega, Nat.zero_le _, by simp only; omega,
      by simp only [rebasedContext]; omega, aligned.borders⟩, rfl, rfl, shallow, rfl⟩
  · rw [if_neg before, if_neg before]
    refine Agrees.ensure Iff.rfl rfl fun ordered => ?_
    have behind : max frame.leftBound boundary ≤ frame.target := by omega
    have fits : frame.context.leftShift + max frame.leftBound boundary < 2 ^ 128 := by omega
    rw [checkedSub, if_pos behind, sub_of_le ordered, add_of_lt fits, addU128_of_lt fits]
    exact .returns ⟨rfl, ⟨by simp only [rebasedContext]; omega, Nat.zero_le _, by simp only; omega,
      by simp only [rebasedContext]; omega, aligned.borders⟩, rfl, rfl, shallow, rfl⟩

theorem rebase_agrees {suite : HashSuite} {frame : Frame} {relativeOffset dataSize : Nat}
    (aligned : frame.Aligned relativeOffset dataSize) (room : dataSize + maxChunkSize < 2 ^ 128)
    (long : 128 ≤ frame.path.length) :
    Agrees (fun next value => next = value ∧ next.Below frame relativeOffset dataSize)
      (rebase suite frame) (checkedRebase suite frame) := by
  have cut (start : Nat) (fits : start + 32 ≤ frame.path.length) :
      slice frame.path start (start + 32) = .ok ((frame.path.drop start).take 32) ∧
        ((frame.path.drop start).take 32).length = 32 :=
    @slice_at frame.path 0 start (start + 32) start 32 (Nat.zero_add _).symm rfl fits
  obtain ⟨first, firstWidth⟩ := cut 32 (by omega)
  obtain ⟨second, secondWidth⟩ := cut 64 (by omega)
  obtain ⟨third, _⟩ := cut 96 (by omega)
  have last : slice frame.path 128 frame.path.length = .ok (frame.path.drop 128) := by
    rw [slice_of_le long le_rfl, List.take_of_length_le (by rw [List.length_drop])]
  rw [rebase, checkedRebase]
  refine Agrees.ensure Iff.rfl rfl fun shallow => ?_
  rw [first, ok_bind, fixed_of_length firstWidth, ok_bind, second, ok_bind,
    fixed_of_length secondWidth, ok_bind, third, ok_bind, toFixed_of_length firstWidth,
    Checked.ok_bind, toFixed_of_length secondWidth, Checked.ok_bind]
  refine (Agrees.of_check _).bind fun _ _ _ => ?_
  refine (Agrees.of_check _).bind fun boundary _ ⟨same, _⟩ => ?_
  subst same
  rw [last, ok_bind, add_of_lt (by omega), ok_bind]
  exact rebaseAt_agrees aligned room _ _ boundary shallow

/-- A call starts with a rebase exactly when the machine takes it for one. -/
theorem rebaseStep_eq (suite : HashSuite) (frame : Frame) :
    (frame.Rebased ∧ rebaseStep suite frame = some <$> rebase suite frame) ∨
      (¬ frame.Rebased ∧ rebaseStep suite frame = pure none) := by
  rw [rebaseStep]
  by_cases long : frame.context.allowRebase = true ∧ 128 ≤ frame.path.length
  · rw [if_pos long, slice_of_le (Nat.zero_le _) (by omega), ok_bind, List.drop_zero, Nat.sub_zero]
    by_cases zeros : (frame.path.take 32).all (· = 0) = true
    · exact .inl ⟨⟨long.1, long.2, zeros⟩, if_pos zeros⟩
    · exact .inr ⟨fun rebased => zeros rebased.2.2, if_neg zeros⟩
  · exact .inr ⟨fun rebased => long ⟨rebased.1, rebased.2.1⟩, if_neg long⟩

theorem below_of_rebaseStep {suite : HashSuite} {frame next : Frame} {relativeOffset dataSize : Nat}
    (aligned : frame.Aligned relativeOffset dataSize) (room : dataSize + maxChunkSize < 2 ^ 128)
    (step : rebaseStep suite frame = .ok (some next)) :
    128 ≤ frame.path.length ∧ next.Below frame relativeOffset dataSize := by
  rcases rebaseStep_eq suite frame with ⟨⟨_, long, _⟩, same⟩ | ⟨_, same⟩
  · have agrees := @rebase_agrees suite frame relativeOffset dataSize aligned room long
    rw [same] at step
    cases result : rebase suite frame with
    | error stop => rw [result] at step; cases step
    | ok found =>
        rw [result] at step agrees
        obtain rfl := Option.some.inj (Except.ok.inj step)
        generalize checkedRebase suite frame = model at agrees
        cases agrees with
        | returns below => exact ⟨long, below.2⟩
  · rw [same] at step
    cases step

/-- The walk agrees with the check, within 65 calls. -/
theorem walkRebasedDataPath_agrees {suite : HashSuite} {calls : Nat} {frame : Frame}
    {relativeOffset dataSize : Nat} (aligned : frame.Aligned relativeOffset dataSize)
    (room : dataSize + maxChunkSize < 2 ^ 128) (short : frame.path.length < 2 ^ 63)
    (enough : 64 < calls + frame.context.rebaseDepth) (depth : frame.context.rebaseDepth ≤ 64) :
    Agrees (fun result value => result = value ∧
        Placed result relativeOffset dataSize frame.context.checkBorders)
      (walkRebasedDataPath suite calls frame)
      (ArIoGateway.walkRebasedDataPath suite frame.root frame.target frame.leftBound
        frame.rightBound frame.path frame.context) := by
  induction calls generalizing frame with
  | zero => omega
  | succ calls induction =>
      rw [walkRebasedDataPath]
      rcases rebaseStep_eq suite frame with ⟨rebased, same⟩ | ⟨plain, same⟩
      · rw [same, walkRebasedDataPath_of_rebased rebased, map_eq_pure_bind, bind_assoc]
        refine (rebase_agrees aligned room rebased.2.1).bind fun next _ related => ?_
        obtain ⟨same, below⟩ := related
        subst same
        have shorter := congrArg List.length below.path_eq
        rw [List.length_drop] at shorter
        have deeper := below.depth_eq
        have borders := below.borders_eq
        rw [pure_bind, ← borders]
        exact induction below.aligned (by omega) (by omega) below.depth_le
      · rw [same, pure_bind, ArIoGateway.walkRebasedDataPath, if_neg plain]
        refine (Agrees.of_check _).bind fun root _ related => ?_
        obtain ⟨same, _⟩ := related
        subst same
        exact walkDataPath_agrees aligned room short

/-- A call that follows from another one. -/
def Calls (suite : HashSuite) (frame next : Frame) : Prop :=
  rebaseStep suite frame = .ok (some next)

/-- A round of the loop that follows from another one. -/
def Turns (suite : HashSuite) (frame : Frame) (position next : Position) : Prop :=
  branchStep suite frame.target frame.path position = .ok next

theorem Turns.within {suite : HashSuite} {frame : Frame} {position next : Position}
    {left right : Nat} (turns : Turns suite frame position next)
    (within : position.Within frame.target left right) : next.Within frame.target left right := by
  rw [Turns, branchStep] at turns
  simp only [bind_eq_ok] at turns
  obtain ⟨_, _, _, _, _, _, _, _, _, _, _, _, _, _, _, _, _, _, _, _, boundary, _, same⟩ := turns
  obtain rfl := Except.ok.inj same
  exact turn_within boundary within

theorem Calls.aligned {suite : HashSuite} {first frame : Frame} {relativeOffset dataSize : Nat}
    (aligned : first.Aligned relativeOffset dataSize) (room : dataSize + maxChunkSize < 2 ^ 128)
    (shallow : first.context.rebaseDepth = 0)
    (reached : Relation.ReflTransGen (Calls suite) first frame) :
    frame.Aligned relativeOffset dataSize ∧ frame.context.rebaseDepth ≤ 64 ∧
      frame.path.length + 128 * frame.context.rebaseDepth = first.path.length := by
  induction reached with
  | refl => exact ⟨aligned, by omega, by omega⟩
  | tail _ calls induction =>
      obtain ⟨good, _, total⟩ := induction
      obtain ⟨long, below⟩ := below_of_rebaseStep good room calls
      have shorter := congrArg List.length below.path_eq
      rw [List.length_drop] at shorter
      have deeper := below.depth_eq
      exact ⟨below.aligned, below.depth_le, by omega⟩

/-- No data path makes the check panic, and its recursion and its loop end; in every call shift and
target make up the requested offset and stay below the shifted right bound, in every round of the loop
the target is inside the bounds; and an accepted place holds the offset, inside the data and, where
borders are checked, of at most one chunk. -/
theorem data_path_walk_safe (suite : HashSuite) (dataRoot : FixedBytes 32)
    (dataSize relativeOffset absoluteOffset : Nat) (path : Bytes)
    (room : dataSize ≤ 2 ^ 128 - 1 - maxChunkSize) (short : path.length < 2 ^ 63) :
    validateDataPath suite dataRoot dataSize relativeOffset absoluteOffset path =
        check (ArIoGateway.validateDataPath suite dataRoot dataSize relativeOffset absoluteOffset
          path) ∧
      (relativeOffset < dataSize → ∀ frame, Relation.ReflTransGen (Calls suite)
          (initialFrame dataRoot dataSize relativeOffset absoluteOffset path) frame →
        frame.context.leftShift + frame.target = relativeOffset ∧
        relativeOffset < frame.context.leftShift + frame.rightBound ∧
        frame.context.leftShift + frame.rightBound ≤ dataSize ∧
        frame.context.rebaseDepth ≤ 64 ∧
        frame.path.length + 128 * frame.context.rebaseDepth = path.length ∧
        ∀ root position, Relation.ReflTransGen (Turns suite frame) (frame.position root) position →
          frame.context.leftShift + position.walk.bounds.left ≤ relativeOffset ∧
          relativeOffset < frame.context.leftShift + position.walk.bounds.right ∧
          frame.context.leftShift + position.walk.bounds.right ≤ dataSize) ∧
      ∀ result, ArIoGateway.validateDataPath suite dataRoot dataSize relativeOffset absoluteOffset
          path = .ok result →
        result.start ≤ relativeOffset ∧ result.start < result.finish ∧ result.finish ≤ dataSize ∧
          ((dataPathRules absoluteOffset).1 = true →
            result.finish - result.start ≤ maxChunkSize) := by
  have room : dataSize + maxChunkSize < 2 ^ 128 := by
    have : maxChunkSize < 2 ^ 128 := by decide
    omega
  have start (inside : relativeOffset < dataSize) :
      (initialFrame dataRoot dataSize relativeOffset absoluteOffset path).Aligned relativeOffset
        dataSize := by
    refine ⟨Nat.zero_add _, Nat.zero_le _, inside, (Nat.zero_add _).le, fun relaxed => ?_⟩
    simp only [initialFrame, dataPathRules] at relaxed ⊢
    split_ifs at relaxed ⊢
    rfl
  have agrees : Agrees (fun result value => result = value ∧
      Placed result relativeOffset dataSize (dataPathRules absoluteOffset).1)
      (validateDataPath suite dataRoot dataSize relativeOffset absoluteOffset path)
      (ArIoGateway.validateDataPath suite dataRoot dataSize relativeOffset absoluteOffset path) := by
    rw [validateDataPath, ArIoGateway.validateDataPath]
    refine Agrees.ensure Iff.rfl rfl fun _ => ?_
    refine Agrees.ensure Iff.rfl rfl fun inside => ?_
    refine Agrees.ensure Iff.rfl rfl fun _ => ?_
    exact walkRebasedDataPath_agrees (start inside) room short (Nat.lt_succ_self 64) (Nat.zero_le _)
  refine ⟨(agrees.mono fun _ _ same => same.1).eq_check, fun inside frame reached => ?_,
    fun result accepted => ?_⟩
  · obtain ⟨aligned, depth, total⟩ := Calls.aligned (start inside) room rfl reached
    have shifted := aligned.shifted
    have upper := aligned.upper
    have inside := aligned.inside
    refine ⟨shifted, by omega, inside, depth, total, fun root position turned => ?_⟩
    have within : position.Within frame.target frame.leftBound frame.rightBound := by
      induction turned with
      | refl => exact ⟨le_rfl, aligned.lower, upper, le_rfl⟩
      | tail _ turns induction => exact turns.within induction
    obtain ⟨_, low, high, bound⟩ := within
    exact ⟨by omega, by omega, by omega⟩
  · rw [accepted] at agrees
    generalize validateDataPath suite dataRoot dataSize relativeOffset absoluteOffset path = machine
      at agrees
    cases agrees with
    | returns placed =>
        obtain ⟨rfl, starts, forward, inside, borders⟩ := placed
        exact ⟨starts, forward, inside, borders⟩

theorem data_path_walk_safe_sample :
    validateDataPath sha2Suite (nodeHash sha2Suite (.branch sampleBranch)) 9 3
        merkleRebaseSupportThreshold samplePath =
      check (ArIoGateway.validateDataPath sha2Suite (nodeHash sha2Suite (.branch sampleBranch)) 9 3
        merkleRebaseSupportThreshold samplePath) :=
  (data_path_walk_safe sha2Suite (nodeHash sha2Suite (.branch sampleBranch)) 9 3
    merkleRebaseSupportThreshold samplePath (by decide) (by decide +kernel)).1

end DataPathWalk
end ArIoGateway
