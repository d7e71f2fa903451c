import ArIoGateway.Foundation.Checked
import Mathlib.Order.Bounds.Basic

/-!
# Bisection

The search for the least number with a property that larger numbers keep.  Whether a number has the
property is asked of an oracle that may fail.
-/

namespace Bisection

/-- Search between two bounds, of which the upper one has the property. -/
def search (ask : Nat → Checked Bool) (low high : Nat) : Checked Nat :=
  if low < high then do
    let found ← ask (low + (high - low) / 2)
    if found then search ask low (low + (high - low) / 2)
    else search ask (low + (high - low) / 2 + 1) high
  else pure low
termination_by high - low

/-- The search ends at the least number when the oracle answers between the bounds. -/
theorem search_eq_ok {ask : Nat → Checked Bool} {property : Nat → Prop} [DecidablePred property]
    {low high : Nat} (order : low ≤ high)
    (answers : ∀ number, low ≤ number → number ≤ high → ask number = .ok (decide (property number)))
    (keeps : ∀ first second, first ≤ second → property first → property second)
    (reached : property high) (below : ∀ number < low, ¬property number) :
    ∃ number, search ask low high = .ok number ∧ number ≤ high ∧
      IsLeast {number | property number} number := by
  induction size : high - low using Nat.strongRecOn generalizing low high with
  | ind size induction =>
      rw [search]
      by_cases open_ : low < high
      · rw [if_pos open_, answers _ (by omega) (by omega), Checked.ok_bind]
        by_cases found : property (low + (high - low) / 2)
        · rw [decide_eq_true found, if_pos rfl]
          obtain ⟨number, done, inside, least⟩ := induction _ (by omega) (by omega)
            (fun number above inside => answers number above (by omega)) found below rfl
          exact ⟨number, done, by omega, least⟩
        · rw [decide_eq_false found, if_neg Bool.false_ne_true]
          refine induction _ (by omega) (by omega)
            (fun number above inside => answers number (by omega) inside) reached ?_ rfl
          intro number less holds
          exact found (keeps number _ (by omega) holds)
      · obtain rfl : low = high := by omega
        rw [if_neg open_]
        exact ⟨low, rfl, le_rfl, reached, fun number holds =>
          Nat.le_of_not_lt fun less => below number less holds⟩

end Bisection
