import Mathlib

/-!
# Machine words

Arithmetic on 64-bit words in which an overflow has no value.
-/

/-- The number of values of a 64-bit word. -/
def wordBound : Nat := 2 ^ 64

/-- A 64-bit word. -/
abbrev Word := Fin wordBound

namespace Word

/-- The sum of two words, when it is a word. -/
def add (left right : Nat) : Option Nat :=
  if left + right < wordBound then some (left + right) else none

/-- The difference of two words, when it is a word. -/
def sub (left right : Nat) : Option Nat :=
  if right ≤ left then some (left - right) else none

@[simp] theorem add_eq_some {left right result : Nat} :
    add left right = some result ↔ left + right < wordBound ∧ left + right = result := by
  simp [add]

@[simp] theorem sub_eq_some {left right result : Nat} :
    sub left right = some result ↔ right ≤ left ∧ left - right = result := by
  simp [sub]

theorem add_of_lt {left right : Nat} (fits : left + right < wordBound) :
    add left right = some (left + right) := by
  simp [fits]

theorem sub_of_le {left right : Nat} (fits : right ≤ left) :
    sub left right = some (left - right) := by
  simp [fits]

end Word
