import Mathlib

/-!
# Checked computations

A checked computation returns a value or the text of the first check that failed.  This file
holds the inversion lemmas for such computations: what is known once one of them has succeeded.
-/

/-- A value, or the message of the check that failed. -/
abbrev Checked (α : Type) := Except String α

namespace Checked

/-- Continue only when a condition holds. -/
def ensure (condition : Prop) [Decidable condition] (message : String) : Checked Unit :=
  if condition then .ok () else .error message

/-- Turn a missing value into a failed check. -/
def context {α : Type} (value : Option α) (message : String) : Checked α :=
  match value with
  | some result => .ok result
  | none => .error message

@[simp] theorem ensure_eq_ok {condition : Prop} [Decidable condition] {message : String}
    {result : Unit} : ensure condition message = .ok result ↔ condition := by
  unfold ensure
  split <;> simp_all

@[simp] theorem ensure_of {condition : Prop} [Decidable condition] {message : String}
    (holds : condition) : ensure condition message = .ok () := by
  simp [holds]

@[simp] theorem context_eq_ok {α : Type} {value : Option α} {message : String} {result : α} :
    context value message = .ok result ↔ value = some result := by
  cases value <;> simp [context]

/-- A sequence succeeds exactly when both of its parts do. -/
@[simp] theorem bind_eq_ok {α β : Type} {first : Checked α} {second : α → Checked β}
    {result : β} :
    (first >>= second) = .ok result ↔ ∃ value, first = .ok value ∧ second value = .ok result := by
  cases first <;> simp [bind, Except.bind]

@[simp] theorem pure_eq_ok {α : Type} {value result : α} :
    (pure value : Checked α) = .ok result ↔ value = result := by
  simp [pure, Except.pure]

@[simp] theorem map_eq_ok {α β : Type} {first : Checked α} {f : α → β} {result : β} :
    (f <$> first) = .ok result ↔ ∃ value, first = .ok value ∧ f value = result := by
  cases first <;> simp [Functor.map, Except.map]

@[simp] theorem mapError_eq_ok {α : Type} {first : Checked α} {f : String → String} {result : α} :
    first.mapError f = .ok result ↔ first = .ok result := by
  cases first <;> simp [Except.mapError]

@[simp] theorem ok_bind {α β : Type} (value : α) (second : α → Checked β) :
    ((.ok value : Checked α) >>= second) = second value := rfl

@[simp] theorem error_bind {α β : Type} (message : String) (second : α → Checked β) :
    ((.error message : Checked α) >>= second) = .error message := rfl

/-- Sequences agree when what follows agrees on the value of their common first part. -/
theorem bind_congr_of_ok {α β : Type} {first : Checked α} {left right : α → Checked β}
    (same : ∀ value, first = .ok value → left value = right value) :
    (first >>= left) = (first >>= right) := by
  cases first with
  | error message => rfl
  | ok value => exact same value rfl

theorem exists_of_isOk {α : Type} (value : Checked α) (succeeds : value.isOk = true) :
    ∃ result, value = .ok result := by
  cases value with
  | ok result => exact ⟨result, rfl⟩
  | error message => cases succeeds

/-- A checked traversal succeeds exactly when it succeeds at every element. -/
theorem mapM_eq_ok {α β : Type} {f : α → Checked β} {values : List α} {results : List β} :
    values.mapM f = .ok results ↔ List.Forall₂ (fun value result => f value = .ok result)
      values results := by
  induction values generalizing results with
  | nil => cases results <;> simp
  | cons value values induction =>
      rw [List.mapM_cons, bind_eq_ok]
      cases results with
      | nil => simp
      | cons result results =>
          simp only [bind_eq_ok, pure_eq_ok, List.cons.injEq, List.forall₂_cons]
          constructor
          · rintro ⟨_, head, _, tail, rfl, rfl⟩
            exact ⟨head, induction.mp tail⟩
          · rintro ⟨head, tail⟩
            exact ⟨result, head, results, induction.mpr tail, rfl, rfl⟩

end Checked
