import Mathlib.Algebra.Order.Floor.Div
import Mathlib.Data.List.Basic
import Mathlib.Data.List.Pairwise
import Mathlib.Data.List.Range

/-!
# Lists cut into pieces

A list that is the concatenation of pieces has, at each of its places, one piece that holds the
place.  Places that lie a full piece apart are held by different pieces.
-/

namespace Pieces

variable {α : Type*}

/-- The piece that holds a place, with its start. -/
def pieceAt : List (List α) → Nat → Option (Nat × List α)
  | [], _ => none
  | piece :: pieces, place =>
      if place < piece.length then some (0, piece)
      else (pieceAt pieces (place - piece.length)).map fun found =>
        (found.1 + piece.length, found.2)

theorem exists_pieceAt {pieces : List (List α)} {place : Nat}
    (inside : place < pieces.flatten.length) : ∃ found, pieceAt pieces place = some found := by
  induction pieces generalizing place with
  | nil => simp at inside
  | cons piece pieces induction =>
      rw [List.flatten_cons, List.length_append] at inside
      rw [pieceAt]
      split
      · exact ⟨_, rfl⟩
      · obtain ⟨found, holds⟩ := @induction (place - piece.length) (by omega)
        exact ⟨_, by rw [holds]; rfl⟩

theorem mem_of_pieceAt {pieces : List (List α)} {place start : Nat} {piece : List α}
    (found : pieceAt pieces place = some (start, piece)) : piece ∈ pieces := by
  induction pieces generalizing place start with
  | nil => cases found
  | cons head pieces induction =>
      rw [pieceAt] at found
      split at found
      · cases found
        exact List.mem_cons_self
      · obtain ⟨⟨before, _⟩, inTail, same⟩ := Option.map_eq_some_iff.mp found
        obtain ⟨rfl, rfl⟩ := Prod.mk.injEq .. ▸ same
        exact List.mem_cons_of_mem _ (induction inTail)

/-- A piece holds the place that it is found for. -/
theorem holds_of_pieceAt {pieces : List (List α)} {place start : Nat} {piece : List α}
    (found : pieceAt pieces place = some (start, piece)) :
    start ≤ place ∧ place < start + piece.length := by
  induction pieces generalizing place start with
  | nil => cases found
  | cons head pieces induction =>
      rw [pieceAt] at found
      split at found
      · cases found
        omega
      · obtain ⟨⟨before, _⟩, inTail, same⟩ := Option.map_eq_some_iff.mp found
        obtain ⟨rfl, rfl⟩ := Prod.mk.injEq .. ▸ same
        have rest := induction inTail
        omega

/-- A piece is what the whole list has at its place. -/
theorem take_of_pieceAt {pieces : List (List α)} {place start : Nat} {piece : List α}
    (found : pieceAt pieces place = some (start, piece)) :
    (pieces.flatten.drop start).take piece.length = piece := by
  induction pieces generalizing place start with
  | nil => cases found
  | cons head pieces induction =>
      rw [pieceAt] at found
      split at found
      · cases found
        simp
      · obtain ⟨⟨before, _⟩, inTail, same⟩ := Option.map_eq_some_iff.mp found
        obtain ⟨rfl, rfl⟩ := Prod.mk.injEq .. ▸ same
        rw [List.flatten_cons, Nat.add_comm, List.drop_length_add_append]
        exact induction inTail

/-- A piece is found for every place that it holds. -/
theorem pieceAt_of_holds {pieces : List (List α)} {place other start : Nat} {piece : List α}
    (found : pieceAt pieces place = some (start, piece)) (after : start ≤ other)
    (before : other < start + piece.length) : pieceAt pieces other = some (start, piece) := by
  induction pieces generalizing place other start with
  | nil => cases found
  | cons head pieces induction =>
      rw [pieceAt] at found ⊢
      split at found
      · cases found
        rw [if_pos (by omega)]
      · obtain ⟨⟨first, _⟩, inTail, same⟩ := Option.map_eq_some_iff.mp found
        obtain ⟨rfl, rfl⟩ := Prod.mk.injEq .. ▸ same
        rw [if_neg (by omega), induction inTail (by omega) (by omega)]
        rfl

/-- Pieces with one start are one piece. -/
theorem eq_of_start_eq {pieces : List (List α)} {first second start : Nat} {left right : List α}
    (foundLeft : pieceAt pieces first = some (start, left))
    (foundRight : pieceAt pieces second = some (start, right)) : left = right := by
  have leftHolds := holds_of_pieceAt foundLeft
  have rightHolds := holds_of_pieceAt foundRight
  have same := (pieceAt_of_holds foundLeft le_rfl (by omega)).symm.trans
    (pieceAt_of_holds foundRight le_rfl (by omega))
  exact (Prod.mk.inj (Option.some.inj same)).2

/-- A piece that starts before another one ends before it starts. -/
theorem finish_le_of_start_lt {pieces : List (List α)} {first second start other : Nat}
    {left right : List α} (foundLeft : pieceAt pieces first = some (start, left))
    (foundRight : pieceAt pieces second = some (other, right)) (less : start < other) :
    start + left.length ≤ other := by
  by_contra overlap
  have rightHolds := holds_of_pieceAt foundRight
  have same := (pieceAt_of_holds foundLeft less.le (by omega)).symm.trans
    (pieceAt_of_holds foundRight le_rfl (by omega))
  exact absurd (Prod.mk.inj (Option.some.inj same)).1 less.ne

/-- Places that lie a full piece apart are held by different pieces, in order. -/
theorem finish_le_of_apart {pieces : List (List α)} {size first second start other : Nat}
    {left right : List α} (bounded : ∀ piece ∈ pieces, piece.length ≤ size)
    (foundLeft : pieceAt pieces first = some (start, left))
    (foundRight : pieceAt pieces second = some (other, right)) (apart : first + size ≤ second) :
    start + left.length ≤ other := by
  have leftHolds := holds_of_pieceAt foundLeft
  have rightHolds := holds_of_pieceAt foundRight
  have leftLength := bounded left (mem_of_pieceAt foundLeft)
  refine finish_le_of_start_lt foundLeft foundRight ?_
  by_contra notBefore
  have same := (pieceAt_of_holds foundRight (by omega) (by omega)).symm.trans foundLeft
  obtain ⟨rfl, rfl⟩ := Prod.mk.inj (Option.some.inj same)
  omega

/-- The next places of a list up to the end of a piece. -/
theorem take_append_of_pieceAt {pieces : List (List α)} {offset place finish start : Nat}
    {piece : List α} (found : pieceAt pieces place = some (start, piece)) (after : offset ≤ place)
    (before : place ≤ finish) :
    (pieces.flatten.drop offset).take (place - offset) ++
        (piece.drop (place - start)).take (min (finish - place) (piece.length - (place - start))) =
      (pieces.flatten.drop offset).take
        (place + min (finish - place) (piece.length - (place - start)) - offset) := by
  have holds := holds_of_pieceAt found
  have count : place + min (finish - place) (piece.length - (place - start)) - offset =
      (place - offset) + min (finish - place) (piece.length - (place - start)) := by omega
  have inner : (piece.drop (place - start)).take
        (min (finish - place) (piece.length - (place - start))) =
      (pieces.flatten.drop place).take
        (min (finish - place) (piece.length - (place - start))) := by
    have same := congrArg (fun held => (held.drop (place - start)).take
      (min (finish - place) (piece.length - (place - start)))) (take_of_pieceAt found)
    rw [← same, List.drop_take, List.drop_drop, List.take_take, Nat.add_sub_cancel' holds.1,
      min_eq_left (min_le_right _ _)]
  rw [count, List.take_add, List.drop_drop, inner, Nat.add_sub_cancel' after]

/-- The places from an offset on, a stride apart, below an end. -/
def strides (stride offset finish : Nat) : List Nat :=
  List.range' offset ((finish - offset) ⌈/⌉ stride) stride

theorem apart_of_strides (stride offset finish : Nat) :
    (strides stride offset finish).Pairwise fun one other => one + stride ≤ other := by
  rw [strides]
  generalize (finish - offset) ⌈/⌉ stride = count
  induction count generalizing offset with
  | zero => exact List.Pairwise.nil
  | succ count induction =>
      rw [List.range'_succ]
      refine List.pairwise_cons.mpr ⟨fun other member => ?_, induction (offset + stride)⟩
      obtain ⟨index, _, rfl⟩ := List.mem_range'.mp member
      exact Nat.le_add_right _ _

theorem mem_strides {stride offset finish place : Nat} (positive : 0 < stride)
    (member : place ∈ strides stride offset finish) : offset ≤ place ∧ place < finish := by
  obtain ⟨index, inside, rfl⟩ := List.mem_range'.mp member
  have covered : stride * index < finish - offset := by
    by_contra past
    exact absurd inside (Nat.not_lt.mpr
      ((ceilDiv_le_iff_le_mul positive).mpr (Nat.not_lt.mp past)))
  omega

theorem mem_intercalate {separator part : List α} {parts : List (List α)}
    (member : part ∈ parts) {element : α} (inside : element ∈ part) :
    element ∈ separator.intercalate parts := by
  induction parts with
  | nil => exact absurd member List.not_mem_nil
  | cons first parts induction =>
      cases parts with
      | nil =>
          obtain rfl := List.mem_singleton.mp member
          rwa [List.intercalate_singleton]
      | cons second parts =>
          rw [List.intercalate_cons_cons]
          rcases List.mem_cons.mp member with rfl | later
          · exact List.mem_append_left _ (List.mem_append_left _ inside)
          · exact List.mem_append_right _ (induction later)

theorem mem_of_mem_intercalate {separator : List α} {parts : List (List α)} {element : α}
    (member : element ∈ separator.intercalate parts) (other : element ∉ separator) :
    ∃ part ∈ parts, element ∈ part := by
  induction parts with
  | nil => exact absurd member List.not_mem_nil
  | cons first parts induction =>
      cases parts with
      | nil =>
          rw [List.intercalate_singleton] at member
          exact ⟨first, List.mem_cons_self, member⟩
      | cons second parts =>
          rw [List.intercalate_cons_cons, List.mem_append, List.mem_append] at member
          rcases member with (here | between) | later
          · exact ⟨first, List.mem_cons_self, here⟩
          · exact absurd between other
          · obtain ⟨part, inside, found⟩ := induction later
            exact ⟨part, List.mem_cons_of_mem _ inside, found⟩

theorem intercalate_cons_eq (separator : α) (first : List α) (rest : List (List α)) :
    [separator].intercalate (first :: rest) = first ++ rest.flatMap (separator :: ·) := by
  induction rest generalizing first with
  | nil => simp
  | cons second rest induction =>
      rw [List.intercalate_cons_cons, induction, List.flatMap_cons, List.append_assoc]
      rfl

/-- The first separator of a text tells what stands before it and behind it. -/
theorem append_cons_inj {separator : α} {left right leftRest rightRest : List α}
    (leftFree : separator ∉ left) (rightFree : separator ∉ right)
    (same : left ++ separator :: leftRest = right ++ separator :: rightRest) :
    left = right ∧ leftRest = rightRest := by
  induction left generalizing right with
  | nil =>
      cases right with
      | nil => exact ⟨rfl, (List.cons.inj same).2⟩
      | cons first right =>
          exact absurd ((List.cons.inj same).1 ▸ List.mem_cons_self) rightFree
  | cons first left induction =>
      cases right with
      | nil => exact absurd ((List.cons.inj same).1 ▸ List.mem_cons_self) leftFree
      | cons other right =>
          obtain ⟨rfl, behind⟩ := List.cons.inj same
          obtain ⟨rfl, rests⟩ := induction (fun member => leftFree (List.mem_cons_of_mem _ member))
            (fun member => rightFree (List.mem_cons_of_mem _ member)) behind
          exact ⟨rfl, rests⟩

end Pieces
