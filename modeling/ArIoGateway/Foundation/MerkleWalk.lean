import Mathlib.Data.List.Basic
import Mathlib.Data.List.Pairwise
import Mathlib.Order.Lattice

/-!
# Walks through hash trees of offsets

A walk starts at a hash, opens one branch after another and ends at a leaf.  The note of a branch
decides which child comes next.  Two walks with one start and one rule of turning are the same
walk, unless two of their nodes have one hash.  Conversely, the walk that a tree itself gives to
an offset ends at the first leaf that ends past the offset.
-/

namespace MerkleWalk

/-- A branch, which names its children by their hashes. -/
structure Branch (Hash Note : Type) where
  left : Hash
  right : Hash
  note : Note

/-- What a node hash is taken of. -/
inductive Node (Hash Note Payload : Type) where
  | branch (content : Branch Hash Note)
  | leaf (payload : Payload) (note : Note)

/-- The branches lead from one state and hash to another.  The rule `turn` says, for a state and a
note, whether the walk goes left, and the next state. -/
inductive Follows {Hash Note Payload State : Type} (nodeHash : Node Hash Note Payload → Hash)
    (turn : State → Note → Option (Bool × State)) :
    State → Hash → List (Branch Hash Note) → State → Hash → Prop where
  | stop (state : State) (hash : Hash) : Follows nodeHash turn state hash [] state hash
  | step {state next last : State} {hash lastHash : Hash} {content : Branch Hash Note}
      {rest : List (Branch Hash Note)} {goLeft : Bool}
      (opened : nodeHash (.branch content) = hash)
      (turned : turn state content.note = some (goLeft, next))
      (tail : Follows nodeHash turn next (if goLeft then content.left else content.right) rest
        last lastHash) :
      Follows nodeHash turn state hash (content :: rest) last lastHash

/-- The nodes of a walk that ends at a leaf. -/
def nodes {Hash Note Payload : Type} (branches : List (Branch Hash Note)) (payload : Payload)
    (note : Note) : List (Node Hash Note Payload) :=
  branches.map Node.branch ++ [.leaf payload note]

section Uniqueness

variable {Hash Note Payload State : Type} {nodeHash : Node Hash Note Payload → Hash}
  {turn : State → Note → Option (Bool × State)}

/-- Two walks from one state and hash are the same walk to the same leaf, when no two of their
nodes have one hash. -/
theorem Follows.unique {state leftLast rightLast : State} {hash leftHash rightHash : Hash}
    {leftBranches rightBranches : List (Branch Hash Note)} {leftPayload rightPayload : Payload}
    {leftNote rightNote : Note}
    (left : Follows nodeHash turn state hash leftBranches leftLast leftHash)
    (right : Follows nodeHash turn state hash rightBranches rightLast rightHash)
    (leftLeaf : nodeHash (.leaf leftPayload leftNote) = leftHash)
    (rightLeaf : nodeHash (.leaf rightPayload rightNote) = rightHash)
    (distinct : ∀ one ∈ nodes leftBranches leftPayload leftNote,
      ∀ other ∈ nodes rightBranches rightPayload rightNote,
        nodeHash one = nodeHash other → one = other) :
    leftBranches = rightBranches ∧ leftPayload = rightPayload ∧ leftNote = rightNote ∧
      leftLast = rightLast := by
  induction left generalizing rightBranches with
  | stop state hash =>
      cases right with
      | stop =>
          have same := distinct _ (by simp [nodes]) _ (by simp [nodes])
            (leftLeaf.trans rightLeaf.symm)
          cases same
          exact ⟨rfl, rfl, rfl, rfl⟩
      | step opened turned tail =>
          have same := distinct _ (by simp [nodes]) _ (by simp [nodes])
            (leftLeaf.trans opened.symm)
          cases same
  | step opened turned tail induction =>
      cases right with
      | stop =>
          have same := distinct _ (by simp [nodes]) _ (by simp [nodes])
            (opened.trans rightLeaf.symm)
          cases same
      | step rightOpened rightTurned rightTail =>
          have same := distinct _ (by simp [nodes]) _ (by simp [nodes])
            (opened.trans rightOpened.symm)
          cases same
          obtain ⟨rfl, rfl⟩ := Prod.mk.inj (Option.some.inj (turned.symm.trans rightTurned))
          obtain ⟨rfl, samePayload, sameNote, sameLast⟩ := induction rightTail leftLeaf
            fun one oneMember other otherMember =>
              distinct one (List.mem_cons_of_mem _ oneMember) other
                (List.mem_cons_of_mem _ otherMember)
          exact ⟨rfl, samePayload, sameNote, sameLast⟩

end Uniqueness

/-- A tree whose leaves end at growing offsets. -/
inductive OffsetTree (Payload : Type) where
  | leaf (payload : Payload) (finish : Nat)
  | branch (left right : OffsetTree Payload)

namespace OffsetTree

variable {Payload : Type}

/-- The end of the last leaf. -/
def finish : OffsetTree Payload → Nat
  | leaf _ finish => finish
  | branch _ right => right.finish

/-- The leaves from left to right. -/
def leaves : OffsetTree Payload → List (Payload × Nat)
  | leaf payload finish => [(payload, finish)]
  | branch left right => left.leaves ++ right.leaves

/-- The hash of a tree; a branch notes where its left child ends. -/
def hash {Hash Note : Type} (nodeHash : Node Hash Note Payload → Hash) (noteOf : Nat → Note) :
    OffsetTree Payload → Hash
  | leaf payload finish => nodeHash (.leaf payload (noteOf finish))
  | branch left right => nodeHash
      (.branch ⟨left.hash nodeHash noteOf, right.hash nodeHash noteOf, noteOf left.finish⟩)

/-- The branches on the way to an offset. -/
def branches {Hash Note : Type} (nodeHash : Node Hash Note Payload → Hash) (noteOf : Nat → Note)
    (target : Nat) : OffsetTree Payload → List (Branch Hash Note)
  | leaf _ _ => []
  | branch left right =>
      ⟨left.hash nodeHash noteOf, right.hash nodeHash noteOf, noteOf left.finish⟩ ::
        if target < left.finish then left.branches nodeHash noteOf target
        else right.branches nodeHash noteOf target

/-- The leaf that an offset leads to. -/
def select (target : Nat) : OffsetTree Payload → Payload × Nat
  | leaf payload finish => (payload, finish)
  | branch left right => if target < left.finish then left.select target else right.select target

/-- How many leaves stand before the one that an offset leads to. -/
def position (target : Nat) : OffsetTree Payload → Nat
  | leaf _ _ => 0
  | branch left right =>
      if target < left.finish then left.position target
      else left.leaves.length + right.position target

/-- The hashes of all nodes. -/
def hashes {Hash Note : Type} (nodeHash : Node Hash Note Payload → Hash) (noteOf : Nat → Note) :
    OffsetTree Payload → List Hash
  | leaf payload finish => [nodeHash (.leaf payload (noteOf finish))]
  | branch left right =>
      (branch left right).hash nodeHash noteOf ::
        (left.hashes nodeHash noteOf ++ right.hashes nodeHash noteOf)

theorem hash_mem_hashes {Hash Note : Type} (nodeHash : Node Hash Note Payload → Hash)
    (noteOf : Nat → Note) (tree : OffsetTree Payload) :
    tree.hash nodeHash noteOf ∈ tree.hashes nodeHash noteOf := by
  cases tree with
  | leaf payload finish => exact List.mem_singleton_self _
  | branch left right => exact List.mem_cons_self

theorem getElem?_position (tree : OffsetTree Payload) (target : Nat) :
    tree.leaves[tree.position target]? = some (tree.select target) := by
  induction tree with
  | leaf payload finish => rfl
  | branch left right leftInduction rightInduction =>
      rw [leaves, position, select]
      split
      · have inside := (List.getElem?_eq_some_iff.mp leftInduction).1
        rw [List.getElem?_append_left inside, leftInduction]
      · rw [List.getElem?_append_right (Nat.le_add_right _ _), Nat.add_sub_cancel_left,
          rightInduction]

theorem finish_mem (tree : OffsetTree Payload) :
    ∃ payload, (payload, tree.finish) ∈ tree.leaves := by
  induction tree with
  | leaf payload finish => exact ⟨payload, by simp [leaves, OffsetTree.finish]⟩
  | branch left right leftInduction rightInduction =>
      obtain ⟨payload, member⟩ := rightInduction
      exact ⟨payload, List.mem_append_right _ member⟩

/-- The leaves end in order. -/
def Ordered (tree : OffsetTree Payload) : Prop :=
  tree.leaves.Pairwise fun one other => one.2 ≤ other.2

theorem Ordered.of_branch {left right : OffsetTree Payload} (ordered : (branch left right).Ordered) :
    left.Ordered ∧ right.Ordered ∧
      ∀ one ∈ left.leaves, ∀ other ∈ right.leaves, one.2 ≤ other.2 :=
  List.pairwise_append.mp ordered

theorem le_finish {tree : OffsetTree Payload} (ordered : tree.Ordered) :
    ∀ one ∈ tree.leaves, one.2 ≤ tree.finish := by
  induction tree with
  | leaf payload finish =>
      intro one member
      obtain rfl := List.mem_singleton.mp member
      exact le_rfl
  | branch left right leftInduction rightInduction =>
      obtain ⟨_, rightOrdered, across⟩ := ordered.of_branch
      obtain ⟨payload, last⟩ := right.finish_mem
      intro one member
      rcases List.mem_append.mp member with inLeft | inRight
      · exact across one inLeft _ last
      · exact rightInduction rightOrdered one inRight

/-- An offset leads to the first leaf that ends past it. -/
theorem select_eq_find {tree : OffsetTree Payload} {target : Nat} (ordered : tree.Ordered)
    (inside : target < tree.finish) :
    tree.leaves.find? (fun one => target < one.2) = some (tree.select target) := by
  induction tree with
  | leaf payload finish =>
      have past : target < finish := inside
      simp [leaves, select, past]
  | branch left right leftInduction rightInduction =>
      obtain ⟨leftOrdered, rightOrdered, _⟩ := ordered.of_branch
      rw [leaves, select, List.find?_append]
      split
      case isTrue goLeft => rw [leftInduction leftOrdered goLeft, Option.some_or]
      case isFalse goRight =>
          have none : left.leaves.find? (fun one => target < one.2) = none := by
            refine List.find?_eq_none.mpr fun one member => ?_
            have bound := le_finish leftOrdered one member
            simp only [decide_eq_true_eq]
            omega
          rw [none, Option.none_or]
          exact rightInduction rightOrdered inside

/-- All leaves before the one that an offset leads to end at or before the offset. -/
theorem le_of_lt_position {tree : OffsetTree Payload} {target index : Nat} (ordered : tree.Ordered)
    (before : index < tree.position target) :
    ∀ one, tree.leaves[index]? = some one → one.2 ≤ target := by
  induction tree generalizing index with
  | leaf payload finish => cases before
  | branch left right leftInduction rightInduction =>
      obtain ⟨leftOrdered, rightOrdered, _⟩ := ordered.of_branch
      intro one found
      rw [leaves] at found
      rw [position] at before
      split at before
      · have inside := (List.getElem?_eq_some_iff.mp (left.getElem?_position target)).1
        rw [List.getElem?_append_left (before.trans inside)] at found
        exact leftInduction leftOrdered before one found
      · next past =>
          by_cases inLeft : index < left.leaves.length
          · rw [List.getElem?_append_left inLeft] at found
            exact (le_finish leftOrdered one (List.mem_of_getElem? found)).trans
              (Nat.le_of_not_lt past)
          · rw [List.getElem?_append_right (Nat.le_of_not_lt inLeft)] at found
            exact rightInduction rightOrdered (by omega) one found

/-- The leaf that an offset leads to ends past the offset. -/
theorem lt_select {tree : OffsetTree Payload} {target : Nat} (inside : target < tree.finish) :
    target < (tree.select target).2 := by
  induction tree with
  | leaf payload finish => exact inside
  | branch left right leftInduction rightInduction =>
      rw [select]
      split
      · next goLeft => exact leftInduction goLeft
      · exact rightInduction inside

end OffsetTree

/-- The bounds that a walk has learned. -/
structure Bounds where
  left : Nat
  right : Nat
deriving DecidableEq

/-- Turn at a boundary and narrow the bounds. -/
def Bounds.turn (target : Nat) (bounds : Bounds) (boundary : Nat) : Bool × Bounds :=
  if target < boundary then (true, { bounds with right := min bounds.right boundary })
  else (false, { bounds with left := max bounds.left boundary })

/-- The greatest end of a leaf that does not end past an offset, where there is one. -/
def startOf {Payload : Type} (leaves : List (Payload × Nat)) (target : Nat) : Nat :=
  leaves.foldr (fun one start => if one.2 ≤ target then max one.2 start else start) 0

theorem startOf_append {Payload : Type} (left right : List (Payload × Nat)) (target : Nat) :
    startOf (left ++ right) target = max (startOf left target) (startOf right target) := by
  induction left with
  | nil => simp [startOf]
  | cons one left induction =>
      simp only [startOf, List.cons_append, List.foldr_cons] at induction ⊢
      split <;> simp [induction, max_assoc]

theorem startOf_eq_zero {Payload : Type} {leaves : List (Payload × Nat)} {target : Nat}
    (past : ∀ one ∈ leaves, target < one.2) : startOf leaves target = 0 := by
  induction leaves with
  | nil => rfl
  | cons one leaves induction =>
      have head := past one List.mem_cons_self
      rw [startOf, List.foldr_cons, if_neg (by omega)]
      exact induction fun other member => past other (List.mem_cons_of_mem _ member)

theorem startOf_le {Payload : Type} {leaves : List (Payload × Nat)} {target limit : Nat}
    (bounded : ∀ one ∈ leaves, one.2 ≤ target → one.2 ≤ limit) :
    startOf leaves target ≤ limit := by
  induction leaves with
  | nil => exact Nat.zero_le _
  | cons one leaves induction =>
      have rest := induction fun other member => bounded other (List.mem_cons_of_mem _ member)
      rw [startOf, List.foldr_cons]
      split
      case isTrue before => exact max_le (bounded one List.mem_cons_self before) rest
      case isFalse => exact rest

theorem le_startOf {Payload : Type} {leaves : List (Payload × Nat)} {target : Nat}
    {one : Payload × Nat} (member : one ∈ leaves) (before : one.2 ≤ target) :
    one.2 ≤ startOf leaves target := by
  induction leaves with
  | nil => cases member
  | cons head leaves induction =>
      rw [startOf, List.foldr_cons]
      rcases List.mem_cons.mp member with rfl | inRest
      · rw [if_pos before]
        exact le_max_left _ _
      · have rest := induction inRest
        split
        · exact rest.trans (le_max_right _ _)
        · exact rest

section Completeness

variable {Hash Note Payload State : Type} {nodeHash : Node Hash Note Payload → Hash}
  {noteOf : Nat → Note} {turn : State → Note → Option (Bool × State)} {target : Nat}

/-- The bounds after the walk of a tree to an offset. -/
def OffsetTree.narrow (target : Nat) : OffsetTree Payload → Bounds → Bounds
  | .leaf _ _, bounds => bounds
  | .branch left right, bounds =>
      let (goLeft, next) := bounds.turn target left.finish
      if goLeft then left.narrow target next else right.narrow target next

theorem OffsetTree.narrow_branch (left right : OffsetTree Payload) (bounds : Bounds) :
    (OffsetTree.branch left right).narrow target bounds =
      if target < left.finish then left.narrow target (bounds.turn target left.finish).2
      else right.narrow target (bounds.turn target left.finish).2 := by
  simp only [narrow, Bounds.turn]
  split <;> rfl

/-- The branches of a tree lead from its hash to the hash of the selected leaf, and a rule that
turns by bounds ends with the narrowed bounds. -/
theorem OffsetTree.follows (tree : OffsetTree Payload) (bounds : State → Bounds) (state : State)
    (turns : ∀ state boundary, (∃ payload, (payload, boundary) ∈ tree.leaves) →
      ∃ next, turn state (noteOf boundary) = some (decide (target < boundary), next) ∧
        bounds next = ((bounds state).turn target boundary).2) :
    ∃ last, Follows nodeHash turn state (tree.hash nodeHash noteOf)
        (tree.branches nodeHash noteOf target) last
        (nodeHash (.leaf (tree.select target).1 (noteOf (tree.select target).2))) ∧
      bounds last = tree.narrow target (bounds state) := by
  induction tree generalizing state with
  | leaf payload finish => exact ⟨state, .stop _ _, rfl⟩
  | branch left right leftInduction rightInduction =>
      obtain ⟨payload, member⟩ := left.finish_mem
      obtain ⟨next, turned, nextBounds⟩ := turns state left.finish
        ⟨payload, List.mem_append_left _ member⟩
      rw [OffsetTree.narrow_branch, OffsetTree.branches, OffsetTree.select, ← nextBounds]
      by_cases goLeft : target < left.finish
      · obtain ⟨last, walked, narrowed⟩ := leftInduction next
          fun state boundary ⟨payload, member⟩ =>
            turns state boundary ⟨payload, List.mem_append_left _ member⟩
        simp only [if_pos goLeft]
        exact ⟨last, .step rfl turned (by simpa [goLeft] using walked), narrowed⟩
      · obtain ⟨last, walked, narrowed⟩ := rightInduction next
          fun state boundary ⟨payload, member⟩ =>
            turns state boundary ⟨payload, List.mem_append_right _ member⟩
        simp only [if_neg goLeft]
        exact ⟨last, .step rfl turned (by simpa [goLeft] using walked), narrowed⟩

/-- The left bound becomes the end of the leaf before the selected one. -/
theorem OffsetTree.narrow_left {tree : OffsetTree Payload} (ordered : tree.Ordered) (bounds : Bounds)
    (inside : target < tree.finish) :
    (tree.narrow target bounds).left = max bounds.left (startOf tree.leaves target) := by
  induction tree generalizing bounds with
  | leaf payload finish =>
      have past : target < finish := inside
      have first : startOf [(payload, finish)] target = 0 := startOf_eq_zero (by simpa using past)
      simp [narrow, leaves, first]
  | branch left right leftInduction rightInduction =>
      obtain ⟨leftOrdered, rightOrdered, across⟩ := ordered.of_branch
      obtain ⟨payload, last⟩ := left.finish_mem
      rw [OffsetTree.narrow_branch, leaves, startOf_append]
      by_cases goLeft : target < left.finish
      · have rightZero : startOf right.leaves target = 0 :=
          startOf_eq_zero fun one member => lt_of_lt_of_le goLeft (across _ last one member)
        rw [if_pos goLeft, leftInduction leftOrdered _ goLeft, rightZero]
        simp [Bounds.turn, goLeft]
      · have leftStart : startOf left.leaves target = left.finish :=
          le_antisymm (startOf_le fun one member _ => le_finish leftOrdered one member)
            (le_startOf last (by omega))
        rw [if_neg goLeft, rightInduction rightOrdered _ inside, leftStart]
        simp [Bounds.turn, goLeft, max_assoc]

/-- The right bound stays at or past the end of the selected leaf. -/
theorem OffsetTree.select_le_narrow {tree : OffsetTree Payload} (ordered : tree.Ordered)
    (bounds : Bounds)
    (bounded : tree.finish ≤ bounds.right) :
    (tree.select target).2 ≤ (tree.narrow target bounds).right := by
  induction tree generalizing bounds with
  | leaf payload finish => exact bounded
  | branch left right leftInduction rightInduction =>
      obtain ⟨leftOrdered, rightOrdered, across⟩ := ordered.of_branch
      obtain ⟨leftPayload, leftLast⟩ := left.finish_mem
      obtain ⟨rightPayload, rightLast⟩ := right.finish_mem
      rw [OffsetTree.narrow_branch, OffsetTree.select]
      by_cases goLeft : target < left.finish
      · rw [if_pos goLeft, if_pos goLeft]
        refine leftInduction leftOrdered _ ?_
        have order : left.finish ≤ right.finish := across _ leftLast _ rightLast
        have bounded : right.finish ≤ bounds.right := bounded
        simp only [Bounds.turn, if_pos goLeft]
        omega
      · rw [if_neg goLeft, if_neg goLeft]
        refine rightInduction rightOrdered _ ?_
        simp only [Bounds.turn, if_neg goLeft]
        exact bounded

/-- Where the right bound starts at the end of the tree, it becomes the end of the selected
leaf. -/
theorem OffsetTree.narrow_right {tree : OffsetTree Payload} (ordered : tree.Ordered)
    (bounds : Bounds) (whole : bounds.right = tree.finish) :
    (tree.narrow target bounds).right = (tree.select target).2 := by
  induction tree generalizing bounds with
  | leaf payload finish => exact whole
  | branch left right leftInduction rightInduction =>
      obtain ⟨leftOrdered, rightOrdered, across⟩ := ordered.of_branch
      obtain ⟨leftPayload, leftLast⟩ := left.finish_mem
      obtain ⟨rightPayload, rightLast⟩ := right.finish_mem
      have order : left.finish ≤ right.finish := across _ leftLast _ rightLast
      have whole : bounds.right = right.finish := whole
      rw [OffsetTree.narrow_branch, OffsetTree.select]
      by_cases goLeft : target < left.finish
      · rw [if_pos goLeft, if_pos goLeft]
        refine leftInduction leftOrdered _ ?_
        simp only [Bounds.turn, if_pos goLeft]
        omega
      · rw [if_neg goLeft, if_neg goLeft]
        refine rightInduction rightOrdered _ ?_
        simp only [Bounds.turn, if_neg goLeft]
        exact whole

end Completeness

section Rows

variable {α β : Type}

/-- Combine the elements of a row in pairs; an odd last element stays as it is. -/
def pairRow (combine : α → α → α) : List α → List α
  | first :: second :: rest => combine first second :: pairRow combine rest
  | [only] => [only]
  | [] => []

attribute [elab_as_elim] pairRow.induct

theorem length_pairRow (combine : α → α → α) (row : List α) :
    (pairRow combine row).length = (row.length + 1) / 2 := by
  induction row using pairRow.induct with
  | case1 first second rest induction =>
      simp only [pairRow, List.length_cons, induction]
      omega
  | case2 only => simp [pairRow]
  | case3 => simp [pairRow]

/-- Combine rows until one element is left. -/
def reduce (combine : α → α → α) (row : List α) : Option α :=
  if 1 < row.length then reduce combine (pairRow combine row) else row.head?
termination_by row.length
decreasing_by
  rw [length_pairRow]
  omega

attribute [elab_as_elim] reduce.induct

theorem pairRow_map {combine : α → α → α} {combine' : β → β → β} {f : α → β}
    (hom : ∀ one other, f (combine one other) = combine' (f one) (f other)) (row : List α) :
    pairRow combine' (row.map f) = (pairRow combine row).map f := by
  induction row using pairRow.induct with
  | case1 first second rest induction => simp [pairRow, induction, hom]
  | case2 only => rfl
  | case3 => rfl

/-- A map that respects the combination respects the reduction. -/
theorem reduce_map {combine : α → α → α} {combine' : β → β → β} {f : α → β}
    (hom : ∀ one other, f (combine one other) = combine' (f one) (f other)) (row : List α) :
    reduce combine' (row.map f) = (reduce combine row).map f := by
  induction row using reduce.induct combine with
  | case1 row long induction =>
      rw [reduce, if_pos (by simpa using long), pairRow_map hom, induction]
      conv_rhs => rw [reduce, if_pos long]
  | case2 row short =>
      rw [reduce, if_neg (by simpa using short), List.head?_map]
      conv_rhs => rw [reduce, if_neg short]

theorem flatMap_pairRow {combine : α → α → α} {content : α → List β}
    (joins : ∀ one other, content (combine one other) = content one ++ content other)
    (row : List α) : (pairRow combine row).flatMap content = row.flatMap content := by
  induction row using pairRow.induct with
  | case1 first second rest induction => simp [pairRow, induction, joins]
  | case2 only => rfl
  | case3 => rfl

/-- The reduction of a row that is not empty holds the whole row in order. -/
theorem reduce_content {combine : α → α → α} {content : α → List β}
    (joins : ∀ one other, content (combine one other) = content one ++ content other)
    {row : List α} (nonempty : row ≠ []) :
    ∃ whole, reduce combine row = some whole ∧ content whole = row.flatMap content := by
  induction row using reduce.induct combine with
  | case1 row long induction =>
      have more : pairRow combine row ≠ [] := by
        refine List.ne_nil_of_length_pos ?_
        rw [length_pairRow]
        omega
      obtain ⟨whole, reduced, same⟩ := induction more
      refine ⟨whole, ?_, same.trans (flatMap_pairRow joins row)⟩
      rw [reduce, if_pos long, reduced]
  | case2 row short =>
      match row, nonempty, short with
      | [only], _, _ => exact ⟨only, by rw [reduce]; rfl, by simp⟩
      | first :: second :: rest, _, short => simp at short

end Rows

end MerkleWalk
