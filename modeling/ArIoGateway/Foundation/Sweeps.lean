import Mathlib.Data.List.Pairwise
import Mathlib.Order.Defs.Unbundled

/-!
# Sweeps

A sweep goes through sorted rows with a cursor.  A step returns the first rows behind the cursor,
or moves the cursor over a gap without rows, or reports that there is nothing left.  A sweep that
obeys this rule returns what is behind its first cursor once, in order, and ends.
-/

namespace Sweeps

variable {α κ : Type} (before : κ → κ → Prop) [DecidableRel before] (key : α → κ)

/-- The rows behind a cursor. -/
def rest (cursor : Option κ) (rows : List α) : List α :=
  rows.filter fun row => cursor.all fun last => before last (key row)

/-- The first rows behind the cursor and inside a window. -/
def page (limit : Nat) (inside : α → Bool) (cursor : Option κ) (rows : List α) : List α :=
  ((rest before key cursor rows).filter inside).take limit

/-- What a step may do: return rows, pass a gap, or find nothing. -/
inductive Step (rows : List α) (distance : Option κ → Nat) (cursor : Option κ) :
    List α × Option κ → Prop where
  | rows (front : List α) (last : α) (back : List α)
      (split : rest before key cursor rows = front ++ last :: back) :
      Step rows distance cursor (front ++ [last], some (key last))
  | gap (edge : κ) (ahead : ∀ last ∈ cursor, before last edge)
      (empty : rest before key (some edge) rows = rest before key cursor rows)
      (nearer : distance (some edge) < distance cursor) :
      Step rows distance cursor ([], some edge)
  | wrap (ended : rest before key cursor rows = []) : Step rows distance cursor ([], none)

/-- The pages of a sweep, each with the cursor behind it, up to the step that finds nothing. -/
inductive Sweep (step : Option κ → List α × Option κ) :
    Option κ → List (List α × κ) → Option κ → Prop where
  | wrap {cursor : Option κ} {found : List α} (stop : step cursor = (found, none)) :
      Sweep step cursor [] cursor
  | next {cursor last : Option κ} {found : List α} {behind : κ} {pages : List (List α × κ)}
      (go : step cursor = (found, some behind)) (others : Sweep step (some behind) pages last) :
      Sweep step cursor ((found, behind) :: pages) last

theorem Sweep.stops {step : Option κ → List α × Option κ} {cursor last : Option κ}
    {pages : List (List α × κ)} (sweep : Sweep step cursor pages last) : (step last).2 = none := by
  induction sweep with
  | wrap stop => rw [stop]
  | next go others induction => exact induction

variable {before key} {rows : List α} {cursor : Option κ}

theorem mem_rest {row : α} : row ∈ rest before key cursor rows ↔
    row ∈ rows ∧ ∀ last ∈ cursor, before last (key row) := by
  rw [rest, List.mem_filter]
  cases cursor <;> simp

@[simp] theorem rest_none : rest before key none rows = rows := by
  rw [rest, List.filter_eq_self]
  simp

/-- A page of chosen rows is a page of all rows in a narrower window. -/
theorem page_filter {limit : Nat} {inside chosen both : α → Bool}
    (narrow : ∀ row, both row = (chosen row && inside row)) :
    page before key limit inside cursor (rows.filter chosen) =
      page before key limit both cursor rows := by
  simp only [page, rest, List.filter_filter]
  congr 2
  funext row
  rw [narrow]
  ac_rfl

section Order

variable [IsStrictOrder κ before]

/-- A later cursor leaves its part of the rest. -/
theorem rest_rest {edge : κ} (ahead : ∀ last ∈ cursor, before last edge) :
    rest before key (some edge) rows =
      (rest before key cursor rows).filter fun row => before edge (key row) := by
  rw [rest, rest, List.filter_filter]
  refine List.filter_congr fun row _ => ?_
  cases cursor with
  | none => simp
  | some last =>
      have first := ahead last rfl
      have later : before edge (key row) → before last (key row) := fun follows =>
        IsTrans.trans _ _ _ first follows
      simpa using later

/-- Behind the last row of a page is what the page left of the rest. -/
theorem rest_behind {front back : List α} {last : α}
    (sorted : rows.Pairwise fun first second => before (key first) (key second))
    (split : rest before key cursor rows = front ++ last :: back) :
    rest before key (some (key last)) rows = back := by
  have ahead : ∀ place ∈ cursor, before place (key last) :=
    (mem_rest.mp (split ▸ List.mem_append_right _ List.mem_cons_self)).2
  have order := sorted.filter fun row => cursor.all fun place => before place (key row)
  change (rest before key cursor rows).Pairwise _ at order
  rw [split, List.pairwise_append, List.pairwise_cons] at order
  rw [rest_rest ahead, split, List.filter_append, List.filter_cons_of_neg (by simpa using irrefl _)]
  have earlier : front.filter (fun row => before (key last) (key row)) = [] := by
    rw [List.filter_eq_nil_iff]
    intro row member
    simpa using asymm (order.2.2 row member last List.mem_cons_self)
  have later : back.filter (fun row => before (key last) (key row)) = back := by
    rw [List.filter_eq_self]
    intro row member
    simpa using order.2.1.1 row member
  rw [earlier, later, List.nil_append]

omit [DecidableRel before] [IsStrictOrder κ before] in
/-- A window that is closed towards the front has the first rows. -/
theorem filter_inside {inside : α → Bool}
    (sorted : rows.Pairwise fun first second => before (key first) (key second))
    (closed : ∀ first second, before (key first) (key second) → inside second → inside first) :
    rows.filter inside ++ rows.filter (fun row => !inside row) = rows := by
  induction rows with
  | nil => rfl
  | cons row rows induction =>
      obtain ⟨first, others⟩ := List.pairwise_cons.mp sorted
      cases kept : inside row with
      | true => simp [kept, induction others]
      | false =>
          have none : rows.filter inside = [] := by
            rw [List.filter_eq_nil_iff]
            intro other member chosen
            simp [closed row other (first other member) chosen] at kept
          have all := induction others
          rw [none, List.nil_append] at all
          simp [kept, none, all]

/-- A step that returns the page of a window, or moves to an edge when the page is empty, obeys the
rule when the edge lies behind the window and all rows are inside when there is no edge. -/
theorem step_of_page {distance : Option κ → Nat} {limit : Nat} {inside : α → Bool}
    {edge : Option κ} (positive : 0 < limit)
    (sorted : rows.Pairwise fun first second => before (key first) (key second))
    (closed : ∀ first second, before (key first) (key second) → inside second → inside first)
    (whole : edge = none → ∀ row ∈ rest before key cursor rows, inside row)
    (gap : ∀ place ∈ edge, (∀ last ∈ cursor, before last place) ∧
      (∀ row ∈ rest before key cursor rows, inside row = false → before place (key row)) ∧
      distance (some place) < distance cursor) :
    Step before key rows distance cursor
      (page before key limit inside cursor rows,
        ((page before key limit inside cursor rows).getLast?.map key).or edge) := by
  have order := sorted.filter fun row => cursor.all fun place => before place (key row)
  have split := filter_inside order closed
  have parts := List.take_append_drop limit ((rest before key cursor rows).filter inside)
  change (rest before key cursor rows).filter inside ++ _ = rest before key cursor rows at split
  rw [← parts, List.append_assoc] at split
  change page before key limit inside cursor rows ++ _ = _ at split
  rcases List.eq_nil_or_concat (page before key limit inside cursor rows) with
    empty | ⟨front, last, some⟩
  · have outside : ∀ row ∈ rest before key cursor rows, inside row = false := by
      obtain zero | none := List.take_eq_nil_iff.mp empty
      · omega
      · simpa using none
    rw [empty]
    cases edge with
    | none =>
        refine .wrap (List.eq_nil_iff_forall_not_mem.mpr fun row member => ?_)
        exact Bool.false_ne_true (outside row member ▸ whole rfl row member)
    | some place =>
        obtain ⟨ahead, behind, nearer⟩ := gap place rfl
        refine .gap place ahead ?_ nearer
        rw [rest_rest ahead, List.filter_eq_self]
        intro row member
        simpa using behind row member (outside row member)
  · rw [List.concat_eq_append] at some
    rw [some, List.append_assoc, List.singleton_append] at split
    simpa [some] using Step.rows front last _ split.symm

/-- **Sweep.**  From any cursor a sweep ends, its pages are the rows behind the cursor, and every
page moves the cursor on. -/
theorem exists_sweep {distance : Option κ → Nat} {step : Option κ → List α × Option κ}
    (sorted : rows.Pairwise fun first second => before (key first) (key second))
    (steps : ∀ cursor, Step before key rows distance cursor (step cursor))
    (closer : ∀ cursor, ∀ row ∈ rest before key cursor rows,
      distance (some (key row)) ≤ distance cursor) (cursor : Option κ) :
    ∃ pages last, Sweep step cursor pages last ∧
      pages.flatMap Prod.fst = rest before key cursor rows ∧
      (∀ page ∈ pages, ∀ place ∈ cursor, before place page.2) ∧
      pages.Pairwise fun first second => before first.2 second.2 := by
  generalize size : (rest before key cursor rows).length + distance cursor = bound
  induction bound using Nat.strongRecOn generalizing cursor with
  | ind bound induction =>
      have stepped := steps cursor
      generalize found : step cursor = result at stepped
      -- A step that goes on leaves fewer rows or a shorter way.
      have extend : ∀ {page : List α} {edge : κ}, step cursor = (page, some edge) →
          (∀ place ∈ cursor, before place edge) →
          rest before key cursor rows = page ++ rest before key (some edge) rows →
          (rest before key (some edge) rows).length + distance (some edge) < bound →
          ∃ pages last, Sweep step cursor pages last ∧
            pages.flatMap Prod.fst = rest before key cursor rows ∧
            (∀ page ∈ pages, ∀ place ∈ cursor, before place page.2) ∧
            pages.Pairwise fun first second => before first.2 second.2 := by
        intro page edge go ahead split less
        obtain ⟨pages, last, sweep, all, behind, order⟩ := induction _ less (some edge) rfl
        refine ⟨(page, edge) :: pages, last, .next go sweep, ?_, ?_, ?_⟩
        · rw [List.flatMap_cons, all, split]
        · rw [List.forall_mem_cons]
          exact ⟨ahead, fun other member place known =>
            IsTrans.trans _ _ _ (ahead place known) (behind other member edge rfl)⟩
        · exact List.pairwise_cons.mpr ⟨fun other member => behind other member edge rfl, order⟩
      cases stepped with
      | rows front last back split =>
          have left := rest_behind sorted split
          have member : last ∈ rest before key cursor rows := by simp [split]
          apply extend found (mem_rest.mp member).2
          · rw [left, split, List.append_assoc, List.singleton_append]
          · have near := closer cursor last member
            rw [split, List.length_append, List.length_cons] at size
            rw [left]
            omega
      | gap edge ahead empty nearer =>
          apply extend found ahead
          · rw [empty, List.nil_append]
          · rw [empty]
            omega
      | wrap ended =>
          exact ⟨[], cursor, .wrap found, ended.symm, by simp, .nil⟩

end Order

end Sweeps
