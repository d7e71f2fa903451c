import ArIoGateway.Foundation.Checked

/-!
# Cursors

A cursor delivers elements one at a time and says when there are no more.  This file relates the
loops over a cursor to the list of the elements that it delivers.  A loop runs for a bounded number
of rounds; the lemmas say how many are enough.
-/

namespace Cursor

variable {σ τ α β : Type}

/-- The elements that a cursor delivers before it ends. -/
inductive Delivers (next : σ → Checked (Option (α × σ))) : σ → List α → Prop
  | done {state} : next state = .ok none → Delivers next state []
  | more {state rest element elements} : next state = .ok (some (element, rest)) →
      Delivers next rest elements → Delivers next state (element :: elements)

/-- Elements that a cursor delivers first, whether it ends, fails or goes on behind them. -/
inductive Begins (next : σ → Checked (Option (α × σ))) : σ → List α → Prop
  | stop {state} : Begins next state []
  | more {state rest element elements} : next state = .ok (some (element, rest)) →
      Begins next rest elements → Begins next state (element :: elements)

/-- Run a body for every element that is left. -/
def fold (next : σ → Checked (Option (α × σ))) (body : β → α → Checked β) :
    (rounds : Nat) → β → σ → Checked β
  | 0, _, _ => .error "loop does not end"
  | rounds + 1, value, state => do
      match ← next state with
      | none => pure value
      | some (element, rest) => fold next body rounds (← body value element) rest

/-- Take up to a number of elements; the flag tells whether the cursor ended before that. -/
def takeUpTo (next : σ → Checked (Option (α × σ))) :
    (size : Nat) → σ → Checked (List α × Bool × σ)
  | 0, state => pure ([], false, state)
  | size + 1, state => do
      match ← next state with
      | none => pure ([], true, state)
      | some (element, rest) =>
          let (elements, complete, rest) ← takeUpTo next size rest
          pure (element :: elements, complete, rest)

/-- Take parts until one of them ends the cursor. -/
def parts (take : σ → Checked (List α × Bool × σ)) :
    (rounds : Nat) → σ → Checked (List (List α × Bool))
  | 0, _ => .error "loop does not end"
  | rounds + 1, state => do
      let (elements, complete, rest) ← take state
      if complete then pure [(elements, true)]
      else return (elements, false) :: (← parts take rounds rest)

variable {next : σ → Checked (Option (α × σ))}

theorem Delivers.begins {state : σ} {elements : List α} (delivers : Delivers next state elements) :
    Begins next state elements := by
  induction delivers with
  | done _ => exact .stop
  | more found _ induction => exact .more found induction

/-- With enough rounds a loop over a cursor is a loop over its elements. -/
theorem Delivers.fold_eq {state : σ} {elements : List α} (delivers : Delivers next state elements)
    (body : β → α → Checked β) (value : β) {rounds : Nat} (enough : elements.length < rounds) :
    fold next body rounds value state = elements.foldlM body value := by
  induction delivers generalizing value rounds with
  | done ended =>
      obtain _ | rounds := rounds
      · cases enough
      · simp [fold, ended]
  | more found _ induction =>
      obtain _ | rounds := rounds
      · cases enough
      · have enough := Nat.lt_of_succ_lt_succ enough
        simp [fold, found, induction _ enough]

/-- A loop that ends has seen every element. -/
theorem delivers_of_fold {body : β → α → Checked β} {rounds : Nat} {value result : β} {state : σ}
    (done : fold next body rounds value state = .ok result) :
    ∃ elements, Delivers next state elements ∧ elements.length < rounds := by
  induction rounds generalizing value state with
  | zero => simp [fold] at done
  | succ rounds induction =>
      rw [fold, Checked.bind_eq_ok] at done
      obtain ⟨found, read, done⟩ := done
      cases found with
      | none => exact ⟨[], .done read, by simp⟩
      | some found =>
          obtain ⟨element, rest⟩ := found
          simp only [Checked.bind_eq_ok] at done
          obtain ⟨_, _, done⟩ := done
          obtain ⟨elements, delivers, enough⟩ := induction done
          exact ⟨element :: elements, .more read delivers, by simpa using enough⟩

theorem Delivers.takeUpTo_eq {state : σ} {elements : List α}
    (delivers : Delivers next state elements) (size : Nat) :
    (elements.length < size ∧ ∃ last, takeUpTo next size state = .ok (elements, true, last)) ∨
    (size ≤ elements.length ∧ ∃ rest,
      takeUpTo next size state = .ok (elements.take size, false, rest) ∧
        Delivers next rest (elements.drop size)) := by
  induction size generalizing state elements with
  | zero => exact .inr ⟨Nat.zero_le _, state, rfl, delivers⟩
  | succ size induction =>
      cases delivers with
      | done ended => exact .inl ⟨Nat.succ_pos _, state, by simp [takeUpTo, ended]⟩
      | more found others =>
          rcases induction others with ⟨short, last, taken⟩ | ⟨long, rest, taken, left⟩
          · exact .inl ⟨Nat.succ_lt_succ short, last, by simp [takeUpTo, found, taken]⟩
          · exact .inr ⟨Nat.succ_le_succ long, rest, by simp [takeUpTo, found, taken], left⟩

/-- The parts that a cursor is cut into: full parts, and a last one that is shorter. -/
structure Cut (size : Nat) (elements : List α) (parts : List (List α × Bool)) : Prop where
  content : parts.flatMap Prod.fst = elements
  ended : ∃ full last, parts = full ++ [(last, true)] ∧ last.length < size ∧
    ∀ part ∈ full, part.1.length = size ∧ part.2 = false

/-- However a cursor is cut, the parts make up its elements. -/
theorem Delivers.parts_eq {state : σ} {elements : List α} (delivers : Delivers next state elements)
    {size rounds : Nat} (positive : 0 < size) (enough : elements.length < rounds) :
    ∃ cut, parts (takeUpTo next size) rounds state = .ok cut ∧ Cut size elements cut := by
  induction rounds generalizing state elements with
  | zero => cases enough
  | succ rounds induction =>
      rcases delivers.takeUpTo_eq size with ⟨short, last, taken⟩ | ⟨long, rest, taken, left⟩
      · exact ⟨[(elements, true)], by simp [parts, taken], by simp,
          [], elements, rfl, short, by simp⟩
      · obtain ⟨cut, found, whole, full, last, rfl, short, fullParts⟩ :=
          induction left (by rw [List.length_drop]; omega)
        refine ⟨(elements.take size, false) :: (full ++ [(last, true)]),
          by simp [parts, taken, found], ?_, (elements.take size, false) :: full, last, rfl, short,
          ?_⟩
        · rw [List.flatMap_cons, whole, List.take_append_drop]
        · rintro part (_ | ⟨_, member⟩)
          · exact ⟨List.length_take_of_le long, rfl⟩
          · exact fullParts part member

/-- Two answers of cursors with the same element and related states. -/
inductive Alike (related : σ → τ → Prop) :
    Checked (Option (α × σ)) → Checked (Option (α × τ)) → Prop
  | error (message) : Alike related (.error message) (.error message)
  | ended : Alike related (.ok none) (.ok none)
  | found {left right} (element) : related left right →
      Alike related (.ok (some (element, left))) (.ok (some (element, right)))

section Simulation

variable {related : σ → τ → Prop} {other : τ → Checked (Option (α × τ))}

theorem Alike.of_none {left : Checked (Option (α × σ))} {right : Checked (Option (α × τ))}
    (alike : Alike related left right) : left = .ok none ↔ right = .ok none := by
  cases alike <;> simp

theorem Alike.of_left {element : α} {leftRest : σ} {right : Checked (Option (α × τ))}
    (alike : Alike related (.ok (some (element, leftRest))) right) :
    ∃ rightRest, right = .ok (some (element, rightRest)) ∧ related leftRest rightRest := by
  cases alike with
  | found _ next => exact ⟨_, rfl, next⟩

theorem Alike.of_right {element : α} {left : Checked (Option (α × σ))} {rightRest : τ}
    (alike : Alike related left (.ok (some (element, rightRest)))) :
    ∃ leftRest, left = .ok (some (element, leftRest)) ∧ related leftRest rightRest := by
  cases alike with
  | found _ next => exact ⟨_, rfl, next⟩

theorem delivers_alike
    (alike : ∀ left right, related left right → Alike related (next left) (other right))
    {left : σ} {right : τ} {elements : List α} (start : related left right) :
    Delivers next left elements ↔ Delivers other right elements := by
  constructor
  · intro delivers
    induction delivers generalizing right with
    | done ended => exact .done ((alike _ _ start).of_none.mp ended)
    | more found _ induction =>
        obtain ⟨rest, otherFound, related⟩ := (found ▸ alike _ _ start).of_left
        exact .more otherFound (induction related)
  · intro delivers
    induction delivers generalizing left with
    | done ended => exact .done ((alike _ _ start).of_none.mpr ended)
    | more found _ induction =>
        obtain ⟨rest, otherFound, related⟩ := (found ▸ alike _ _ start).of_right
        exact .more otherFound (induction related)

theorem begins_alike
    (alike : ∀ left right, related left right → Alike related (next left) (other right))
    {left : σ} {right : τ} {elements : List α} (start : related left right)
    (begins : Begins next left elements) : Begins other right elements := by
  induction begins generalizing right with
  | stop => exact .stop
  | more found _ induction =>
      obtain ⟨rest, otherFound, related⟩ := (found ▸ alike _ _ start).of_left
      exact .more otherFound (induction related)

end Simulation

end Cursor
