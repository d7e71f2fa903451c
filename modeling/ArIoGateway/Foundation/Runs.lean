import Mathlib

/-!
# Runs of labelled steps

A run takes one step for each action of a list.  What one step keeps, a whole run keeps; what one
step may change, a whole run may change.
-/

/-- The state reached from another by one step for each action, in order. -/
inductive Run {σ α : Type*} (step : σ → α → σ → Prop) : σ → List α → σ → Prop
  | stop (state : σ) : Run step state [] state
  | next {before middle after : σ} {action : α} {actions : List α} :
      step before action middle →
      Run step middle actions after →
      Run step before (action :: actions) after

namespace Run

variable {σ α : Type*} {step : σ → α → σ → Prop}

theorem single {before after : σ} {action : α} (taken : step before action after) :
    Run step before [action] after :=
  .next taken (.stop after)

/-- Put one run behind another. -/
theorem append {before middle after : σ} {first second : List α}
    (left : Run step before first middle) (right : Run step middle second after) :
    Run step before (first ++ second) after := by
  induction left with
  | stop => exact right
  | next taken _ induction => exact .next taken (induction right)

/-- The last step of a run. -/
theorem exists_last {before after : σ} {actions : List α} {action : α}
    (run : Run step before (actions ++ [action]) after) :
    ∃ middle, Run step before actions middle ∧ step middle action after := by
  induction actions generalizing before with
  | nil =>
      cases run with
      | next taken rest =>
          cases rest
          exact ⟨before, .stop before, taken⟩
  | cons head tail induction =>
      cases run with
      | next taken rest =>
          obtain ⟨middle, run, last⟩ := induction rest
          exact ⟨middle, .next taken run, last⟩

/-- A run takes the steps of any relation that allows its steps. -/
theorem mono {step' : σ → α → σ → Prop}
    (allows : ∀ before action after, step before action after → step' before action after)
    {before after : σ} {actions : List α} (run : Run step before actions after) :
    Run step' before actions after := by
  induction run with
  | stop state => exact .stop state
  | next taken _ induction => exact .next (allows _ _ _ taken) induction

/-- What every step keeps holds after a run. -/
theorem invariant {holds : σ → Prop}
    (keeps : ∀ before action after, holds before → step before action after → holds after)
    {before after : σ} {actions : List α} (run : Run step before actions after)
    (start : holds before) : holds after := by
  induction run with
  | stop => exact start
  | next taken _ induction => exact induction (keeps _ _ _ start taken)

/-- What every step keeps of the actions so far and the state behind them holds after a run. -/
theorem history {start : σ} (holds : List α → σ → Prop)
    (keeps : ∀ actions before action after, Run step start actions before → holds actions before →
      step before action after → holds (actions ++ [action]) after)
    {actions : List α} {after : σ} (run : Run step start actions after)
    (empty : holds [] start) : holds actions after := by
  induction actions using List.reverseRecOn generalizing after with
  | nil =>
      cases run
      exact empty
  | append_singleton actions action induction =>
      obtain ⟨middle, front, last⟩ := run.exists_last
      exact keeps _ _ _ _ front (induction front) last

/-- Where every counted action lowers a measure and no action raises it, a run has no more counted
actions than the measure at its start. -/
theorem countP_le {holds : σ → Prop} {counted : α → Bool} {measure : σ → Nat}
    (keeps : ∀ before action after, holds before → step before action after → holds after)
    (falls : ∀ before action after, holds before → step before action after →
      measure after + (counted action).toNat ≤ measure before)
    {before after : σ} {actions : List α} (run : Run step before actions after)
    (start : holds before) : measure after + actions.countP counted ≤ measure before := by
  induction run with
  | stop => simp
  | @next before middle after action actions taken _ induction =>
      have first := falls _ _ _ start taken
      have rest := induction (keeps _ _ _ start taken)
      rw [List.countP_cons]
      cases holds : counted action <;> simp_all <;> omega

/-- Where a step is possible in every state of an invariant, a run is possible. -/
theorem exists_of_total {holds : σ → Prop}
    (total : ∀ before action, holds before → ∃ after, step before action after ∧ holds after)
    (before : σ) (actions : List α) (start : holds before) :
    ∃ after, Run step before actions after ∧ holds after := by
  induction actions generalizing before with
  | nil => exact ⟨before, .stop before, start⟩
  | cons action actions induction =>
      obtain ⟨middle, taken, middleHolds⟩ := total before action start
      obtain ⟨after, run, afterHolds⟩ := induction middle middleHolds
      exact ⟨after, .next taken run, afterHolds⟩

/-- A function that takes the steps one after another runs. -/
theorem of_foldlM {next : σ → α → Option σ} {before after : σ} {actions : List α}
    (folds : actions.foldlM next before = some after) :
    Run (fun before action after => next before action = some after) before actions after := by
  induction actions generalizing before with
  | nil =>
      cases folds
      exact .stop _
  | cons action actions induction =>
      rw [List.foldlM_cons] at folds
      obtain ⟨middle, taken, rest⟩ := Option.bind_eq_some_iff.mp folds
      exact .next taken (induction rest)

/-- A function that takes the steps one after another to a state that holds runs to it. -/
theorem exists_of_foldlM {next : σ → α → Option σ} {before : σ} {actions : List α}
    (holds : σ → Prop) [DecidablePred holds]
    (reaches : ((actions.foldlM next before).any fun after => holds after) = true) :
    ∃ after, Run (fun before action after => next before action = some after) before actions after ∧
      holds after := by
  obtain ⟨after, folds, found⟩ := (Option.any_eq_true _ _).mp reaches
  exact ⟨after, of_foldlM folds, by simpa using found⟩

end Run

/-- Replacing one element moves a count by what the old and the new one count for. -/
theorem List.countP_set_add {α : Type*} (counted : α → Bool) {values : List α} {place : Nat}
    {old : α} (found : values[place]? = some old) (new : α) :
    (values.set place new).countP counted + (counted old).toNat =
      values.countP counted + (counted new).toNat := by
  obtain ⟨inside, rfl⟩ := List.getElem?_eq_some_iff.mp found
  have counts : (if counted values[place] then 1 else 0) ≤ values.countP counted :=
    List.boole_getElem_le_countP inside
  rw [List.countP_set inside]
  cases old : counted values[place] <;> cases counted new <;> simp_all

/-- Replacing one element moves a total by what the old and the new one weigh. -/
theorem List.sum_map_set_add {α : Type*} (weight : α → Nat) {values : List α} {place : Nat}
    {old : α} (found : values[place]? = some old) (new : α) :
    ((values.set place new).map weight).sum + weight old =
      (values.map weight).sum + weight new := by
  induction values generalizing place with
  | nil => cases found
  | cons head tail induction =>
      cases place with
      | zero =>
          obtain rfl : head = old := by simpa using found
          simp only [List.set_cons_zero, List.map_cons, List.sum_cons]
          omega
      | succ place =>
          have rest := induction (List.getElem?_cons_succ ▸ found)
          simp only [List.set_cons_succ, List.map_cons, List.sum_cons]
          omega

theorem List.toNat_le_countP {α : Type*} (counted : α → Bool) {values : List α} {place : Nat}
    {value : α} (found : values[place]? = some value) :
    (counted value).toNat ≤ values.countP counted := by
  cases holds : counted value with
  | false => simp
  | true =>
      have member := List.mem_of_getElem? found
      simpa using List.countP_pos_iff.mpr ⟨value, member, holds⟩

theorem List.two_le_countP {α : Type*} {counted : α → Bool} {values : List α} {first second : Nat}
    {left right : α} (foundLeft : values[first]? = some left)
    (foundRight : values[second]? = some right) (differ : first ≠ second)
    (countsLeft : counted left) (countsRight : counted right) : 2 ≤ values.countP counted := by
  induction values generalizing first second with
  | nil => simp at foundLeft
  | cons value values induction =>
      have inTail {place : Nat} {element : α} (found : values[place]? = some element)
          (counts : counted element) : 1 ≤ values.countP counted :=
        List.countP_pos_iff.mpr ⟨element, List.mem_of_getElem? found, counts⟩
      rw [List.countP_cons]
      cases first with
      | zero =>
          cases second with
          | zero => exact (differ rfl).elim
          | succ second =>
              obtain rfl : value = left := by simpa using foundLeft
              have tail := inTail (by simpa using foundRight) countsRight
              rw [if_pos countsLeft]
              omega
      | succ first =>
          cases second with
          | zero =>
              obtain rfl : value = right := by simpa using foundRight
              have tail := inTail (by simpa using foundLeft) countsLeft
              rw [if_pos countsRight]
              omega
          | succ second =>
              have tail := induction (by simpa using foundLeft) (by simpa using foundRight)
                (by simpa using differ)
              omega

theorem List.countP_le_add {α : Type*} {counted first second : α → Bool} {values : List α}
    (covered : ∀ value ∈ values, counted value → first value ∨ second value) :
    values.countP counted ≤ values.countP first + values.countP second := by
  induction values with
  | nil => simp
  | cons value values induction =>
      have rest := induction fun other member => covered other (List.mem_cons_of_mem value member)
      have head := covered value List.mem_cons_self
      simp only [List.countP_cons]
      cases holds : counted value <;> cases left : first value <;> cases right : second value <;>
        simp_all <;> omega
