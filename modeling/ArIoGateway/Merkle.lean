import ArIoGateway.Foundation.MerkleWalk
import ArIoGateway.Hashing

/-!
# Merkle trees of offsets

The node hashes and notes of transaction and data trees, the loop that walks a path through one,
and the root of a row of leaves.
-/

namespace ArIoGateway

open MerkleWalk Octets

abbrev hashSize : Nat := 32
abbrev noteSize : Nat := 32
abbrev branchSize : Nat := hashSize * 2 + noteSize
abbrev leafSize : Nat := hashSize + noteSize
def maxChunkSize : Nat := 256 * 1024

/-- `hash_branch`. -/
def hashBranch (suite : HashSuite) (left right note : Bytes) : FixedBytes 32 :=
  suite.sha256 [(suite.sha256 [left]).val, (suite.sha256 [right]).val, (suite.sha256 [note]).val]

/-- `hash_leaf`. -/
def hashLeaf (suite : HashSuite) (dataHash note : Bytes) : FixedBytes 32 :=
  suite.sha256 [(suite.sha256 [dataHash]).val, (suite.sha256 [note]).val]

/-- An offset in the 32 bytes of a note. -/
def note (value : Nat) : FixedBytes 32 :=
  ⟨List.replicate 16 0 ++ bigEndian 16 value, by simp⟩

/-- Read the offset of a note, which must fit a `u128`. -/
def noteToU128 (note : Bytes) : Checked Nat := do
  Checked.ensure (note.length = noteSize) "invalid Merkle note length"
  Checked.ensure ((note.take (noteSize - 16)).all (· = 0) = true) "Merkle note exceeds u128"
  pure (ofBigEndian (note.drop (noteSize - 16)))

@[simp] theorem noteToU128_note {value : Nat} (bound : value < 2 ^ 128) :
    noteToU128 (note value).val = .ok value := by
  have read : ofBigEndian (bigEndian 16 value) = value :=
    ofBigEndian_bigEndian (by simpa using bound)
  simp [noteToU128, note, noteSize, read]

theorem noteToU128_lt {note : Bytes} {value : Nat} (read : noteToU128 note = .ok value) :
    value < 2 ^ 128 := by
  simp only [noteToU128, Checked.bind_eq_ok, Checked.ensure_eq_ok,
    Checked.pure_eq_ok] at read
  obtain ⟨_, width, _, _, rfl⟩ := read
  have bound := ofBigEndian_lt (note.drop (noteSize - 16))
  rw [List.length_drop, width] at bound
  exact bound

/-- The loop over the branches of a path.  It ends with the state, the expected hash and the rest
of the path when no more than a leaf is left. -/
def walkBranches {State : Type} (suite : HashSuite) (label : String)
    (turn : State → Nat → Bool × State) (state : State) (currentHash : FixedBytes 32)
    (path : Bytes) : Checked (State × FixedBytes 32 × Bytes) :=
  if leafSize < path.length then do
    Checked.ensure (branchSize ≤ path.length) s!"truncated {label} branch"
    let left ← toFixed hashSize (path.take hashSize)
    let right ← toFixed hashSize ((path.drop hashSize).take hashSize)
    let note := (path.drop (hashSize * 2)).take noteSize
    Checked.ensure (hashBranch suite left.val right.val note = currentHash)
      s!"invalid {label} branch"
    let boundary ← noteToU128 note
    let (goLeft, next) := turn state boundary
    walkBranches suite label turn next (if goLeft then left else right) (path.drop branchSize)
  else pure (state, currentHash, path)
termination_by path.length
decreasing_by
  rw [List.length_drop]
  simp only [leafSize, branchSize, hashSize, noteSize] at *
  omega

/-- The node of a transaction or data tree as its hash sees it. -/
abbrev PathNode := Node (FixedBytes 32) (FixedBytes 32) Bytes

/-- A branch of a path. -/
abbrev PathBranch := Branch (FixedBytes 32) (FixedBytes 32)

/-- The hash of a node. -/
def nodeHash (suite : HashSuite) : PathNode → FixedBytes 32
  | .branch content => hashBranch suite content.left.val content.right.val content.note.val
  | .leaf payload note => hashLeaf suite payload note.val

/-- The messages that the hash of a node hashes. -/
def nodeMessages (suite : HashSuite) : PathNode → List Bytes
  | .branch content =>
      [content.left.val, content.right.val, content.note.val,
        (suite.digest256 content.left.val).val ++ (suite.digest256 content.right.val).val ++
          (suite.digest256 content.note.val).val]
  | .leaf payload note =>
      [payload, note.val, (suite.digest256 payload).val ++ (suite.digest256 note.val).val]

/-- Nodes with one hash are the same node, unless the messages behind the hash collide. -/
theorem nodeHash_inj {suite : HashSuite} {left right : PathNode}
    (free : Collision.Free suite.digest256 (nodeMessages suite left ++ nodeMessages suite right))
    (same : nodeHash suite left = nodeHash suite right) : left = right := by
  cases left with
  | branch left =>
      cases right with
      | branch right =>
          simp only [nodeHash, hashBranch, HashSuite.sha256, List.flatten_cons, List.flatten_nil,
            List.append_nil, ← List.append_assoc] at same
          have outer := free.eq (by simp [nodeMessages]) (by simp [nodeMessages]) same
          obtain ⟨outer, notes⟩ := List.append_inj outer (by simp)
          obtain ⟨lefts, rights⟩ := List.append_inj outer (by simp)
          have sameLeft := free.eq (by simp [nodeMessages]) (by simp [nodeMessages])
            (Subtype.ext lefts)
          have sameRight := free.eq (by simp [nodeMessages]) (by simp [nodeMessages])
            (Subtype.ext rights)
          have sameNote := free.eq (by simp [nodeMessages]) (by simp [nodeMessages])
            (Subtype.ext notes)
          rcases left with ⟨left, right, note⟩
          simp only at sameLeft sameRight sameNote
          rw [Subtype.ext sameLeft, Subtype.ext sameRight, Subtype.ext sameNote]
      | leaf payload note =>
          simp only [nodeHash, hashBranch, hashLeaf, HashSuite.sha256, List.flatten_cons,
            List.flatten_nil, List.append_nil, ← List.append_assoc] at same
          have outer := congrArg List.length
            (free.eq (by simp [nodeMessages]) (by simp [nodeMessages]) same)
          simp at outer
  | leaf leftPayload leftNote =>
      cases right with
      | branch right =>
          simp only [nodeHash, hashBranch, hashLeaf, HashSuite.sha256, List.flatten_cons,
            List.flatten_nil, List.append_nil, ← List.append_assoc] at same
          have outer := congrArg List.length
            (free.eq (by simp [nodeMessages]) (by simp [nodeMessages]) same)
          simp at outer
      | leaf rightPayload rightNote =>
          simp only [nodeHash, hashLeaf, HashSuite.sha256, List.flatten_cons, List.flatten_nil,
            List.append_nil] at same
          have outer := free.eq (by simp [nodeMessages]) (by simp [nodeMessages]) same
          obtain ⟨payloads, notes⟩ := List.append_inj outer (by simp)
          have samePayload := free.eq (by simp [nodeMessages]) (by simp [nodeMessages])
            (Subtype.ext payloads)
          have sameNote := free.eq (by simp [nodeMessages]) (by simp [nodeMessages])
            (Subtype.ext notes)
          rw [samePayload, Subtype.ext sameNote]

/-- The bytes of a branch in a path. -/
def PathBranch.bytes (content : PathBranch) : Bytes :=
  content.left.val ++ content.right.val ++ content.note.val

@[simp] theorem PathBranch.length_bytes (content : PathBranch) :
    (PathBranch.bytes content).length = 96 := by
  simp [PathBranch.bytes, content.left.property, content.right.property, content.note.property]

/-- The parts of a path that starts with a branch. -/
theorem PathBranch.slices (content : PathBranch) (rest : Bytes) :
    (PathBranch.bytes content ++ rest).take hashSize = content.left.val ∧
      ((PathBranch.bytes content ++ rest).drop hashSize).take hashSize = content.right.val ∧
      ((PathBranch.bytes content ++ rest).drop (hashSize * 2)).take noteSize = content.note.val ∧
      (PathBranch.bytes content ++ rest).drop branchSize = rest := by
  have left : ∀ tail : Bytes, (content.left.val ++ tail).drop 32 = tail :=
    fun tail => List.drop_left' content.left.property
  have right : ∀ tail : Bytes, (content.right.val ++ tail).drop 32 = tail :=
    fun tail => List.drop_left' content.right.property
  have both : (PathBranch.bytes content ++ rest).drop (hashSize * 2) = content.note.val ++ rest := by
    rw [show hashSize * 2 = 32 + 32 by rfl, ← List.drop_drop, PathBranch.bytes, List.append_assoc,
      List.append_assoc, left, right]
  refine ⟨?_, ?_, ?_, ?_⟩
  · rw [PathBranch.bytes, List.append_assoc, List.append_assoc]
    exact List.take_left' content.left.property
  · rw [PathBranch.bytes, List.append_assoc, List.append_assoc, left]
    exact List.take_left' content.right.property
  · rw [both]
    exact List.take_left' content.note.property
  · exact List.drop_left' content.length_bytes

/-- The turn of a walk at a note as it is written in the path. -/
def noteTurn {State : Type} (turn : State → Nat → Bool × State) (state : State)
    (note : FixedBytes 32) : Option (Bool × State) :=
  (noteToU128 note.val).toOption.map (turn state)

theorem noteTurn_eq_some {State : Type} {turn : State → Nat → Bool × State} {state : State}
    {note : FixedBytes 32} {result : Bool × State} :
    noteTurn turn state note = some result ↔
      ∃ boundary, noteToU128 note.val = .ok boundary ∧ turn state boundary = result := by
  unfold noteTurn
  cases noteToU128 note.val <;> simp [Except.toOption]

/-- One round of the loop. -/
theorem walkBranches_branch {State : Type} {suite : HashSuite} {label : String}
    {turn : State → Nat → Bool × State} {state : State} {hash : FixedBytes 32} {path : Bytes}
    {result : State × FixedBytes 32 × Bytes} (longer : leafSize < path.length) :
    walkBranches suite label turn state hash path = .ok result ↔
      ∃ (content : PathBranch) (rest : Bytes) (goLeft : Bool) (next : State),
        path = PathBranch.bytes content ++ rest ∧ nodeHash suite (.branch content) = hash ∧
        noteTurn turn state content.note = some (goLeft, next) ∧
        walkBranches suite label turn next (if goLeft then content.left else content.right) rest =
          .ok result := by
  rw [walkBranches, if_pos longer]
  simp only [Checked.bind_eq_ok, Checked.ensure_eq_ok, toFixed_eq_ok, noteTurn_eq_some, branchSize,
    hashSize, noteSize]
  constructor
  · rintro ⟨_, fits, left, leftSame, right, rightSame, _, opened, boundary, read, tail⟩
    have width : ((path.drop (32 * 2)).take 32).length = 32 := by
      rw [List.length_take, List.length_drop]
      omega
    refine ⟨⟨left, right, ⟨_, width⟩⟩, path.drop 96, (turn state boundary).1,
      (turn state boundary).2, ?_, opened, ⟨boundary, read, rfl⟩, tail⟩
    have leftPart : path = path.take 32 ++ path.drop 32 := (List.take_append_drop 32 path).symm
    have rightPart : path.drop 32 = (path.drop 32).take 32 ++ path.drop 64 := by
      conv_lhs => rw [← List.take_append_drop 32 (path.drop 32), List.drop_drop]
    have notePart : path.drop 64 = (path.drop 64).take 32 ++ path.drop 96 := by
      conv_lhs => rw [← List.take_append_drop 32 (path.drop 64), List.drop_drop]
    simp only [PathBranch.bytes, List.append_assoc]
    rw [← notePart, ← rightSame, ← rightPart, ← leftSame, ← leftPart]
  · rintro ⟨content, rest, goLeft, next, rfl, opened, ⟨boundary, read, turned⟩, tail⟩
    obtain ⟨leftSame, rightSame, noteSame, restSame⟩ := PathBranch.slices content rest
    refine ⟨(), by simp, content.left, leftSame, content.right, rightSame, (), ?_, boundary, ?_, ?_⟩
    · rw [noteSame]
      exact opened
    · rw [noteSame]
      exact read
    · rw [turned, restSame]
      exact tail

/-- The loop succeeds exactly on the bytes of branches that the walk follows, with no more than a
leaf behind them. -/
theorem walkBranches_eq_ok {State : Type} {suite : HashSuite} {label : String}
    {turn : State → Nat → Bool × State} {state last : State} {hash lastHash : FixedBytes 32}
    {path rest : Bytes} :
    walkBranches suite label turn state hash path = .ok (last, lastHash, rest) ↔
      ∃ branches : List PathBranch, path = branches.flatMap PathBranch.bytes ++ rest ∧
        rest.length ≤ leafSize ∧
        Follows (nodeHash suite) (noteTurn turn) state hash branches last lastHash := by
  constructor
  · intro done
    induction length : path.length using Nat.strong_induction_on generalizing path state hash with
    | _ length induction =>
      by_cases longer : leafSize < path.length
      · obtain ⟨content, tail, goLeft, next, rfl, opened, turned, rested⟩ :=
          (walkBranches_branch longer).mp done
        rw [List.length_append, PathBranch.length_bytes] at length
        obtain ⟨branches, rfl, short, followed⟩ := induction _ (by omega) rested rfl
        exact ⟨content :: branches, by simp, short, .step opened turned followed⟩
      · rw [walkBranches, if_neg longer] at done
        cases done
        exact ⟨[], by simp, Nat.le_of_not_lt longer, .stop _ _⟩
  · rintro ⟨branches, rfl, short, followed⟩
    induction followed with
    | stop state hash =>
        rw [walkBranches, List.flatMap_nil, List.nil_append, if_neg (Nat.not_lt.mpr short)]
        rfl
    | step opened turned tail induction =>
        refine (walkBranches_branch ?_).mpr ⟨_, _, _, _, ?_, opened, turned, induction⟩
        · simp [leafSize, hashSize, noteSize]
          omega
        · simp

/-- The messages that the check of a path hashes. -/
def pathMessages (suite : HashSuite) (path : Bytes) : List Bytes :=
  if leafSize < path.length then
    let left := path.take hashSize
    let right := (path.drop hashSize).take hashSize
    let note := (path.drop (hashSize * 2)).take noteSize
    [left, right, note, (suite.sha256 [left]).val ++ (suite.sha256 [right]).val ++
      (suite.sha256 [note]).val] ++ pathMessages suite (path.drop branchSize)
  else
    let dataHash := path.take hashSize
    let note := (path.drop hashSize).take noteSize
    [dataHash, note, (suite.sha256 [dataHash]).val ++ (suite.sha256 [note]).val]
termination_by path.length
decreasing_by
  rw [List.length_drop]
  simp only [leafSize, branchSize, hashSize, noteSize] at *
  omega

/-- The messages of a path are those of its nodes. -/
theorem pathMessages_eq (suite : HashSuite) (branches : List PathBranch)
    (payload note : FixedBytes 32) :
    pathMessages suite (branches.flatMap PathBranch.bytes ++ (payload.val ++ note.val)) =
      (nodes branches payload.val note).flatMap (nodeMessages suite) := by
  induction branches with
  | nil =>
      have payloadSame : (payload.val ++ note.val).take hashSize = payload.val :=
        List.take_left' payload.property
      have noteSame : ((payload.val ++ note.val).drop hashSize).take noteSize = note.val := by
        rw [List.drop_left' payload.property]
        exact List.take_of_length_le (by simp)
      rw [List.flatMap_nil, List.nil_append, pathMessages,
        if_neg (by simp [leafSize, hashSize, noteSize])]
      simp only [payloadSame, noteSame]
      simp [nodes, nodeMessages, HashSuite.sha256]
  | cons content branches induction =>
      obtain ⟨leftSame, rightSame, noteSame, restSame⟩ := PathBranch.slices content
        (branches.flatMap PathBranch.bytes ++ (payload.val ++ note.val))
      rw [List.flatMap_cons, List.append_assoc, pathMessages,
        if_pos (by simp [leafSize, hashSize, noteSize]; omega)]
      simp only [leftSame, rightSame, noteSame, restSame, induction]
      simp [nodes, nodeMessages, HashSuite.sha256]

/-- Combine two neighbours of a row; the note of the branch is the end of the left one. -/
def combineNodes (suite : HashSuite) (left right : FixedBytes 32 × Nat) : FixedBytes 32 × Nat :=
  (hashBranch suite left.1.val right.1.val (note left.2).val, right.2)

/-- `merkle_root`; an odd node is carried up unchanged. -/
def merkleRoot (suite : HashSuite) (row : List (FixedBytes 32 × Nat)) : Option (FixedBytes 32) :=
  (reduce (combineNodes suite) row).map Prod.fst

end ArIoGateway
