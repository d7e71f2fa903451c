import Mathlib

/-!
# Bounded lists by recency

Keyed values in the order of their last use, the oldest first.  A value that is used moves to the
end; values are given up from the front until the others leave enough room.
-/

namespace Recency

variable {K V : Type*}

/-- The size of all values. -/
def total (size : V → Nat) (entries : List (K × V)) : Nat :=
  (entries.map fun entry => size entry.2).sum

/-- Give up the oldest values until there are less than so many and they take no more room. -/
def fit (size : V → Nat) (maxEntries room : Nat) : List (K × V) → List (K × V)
  | [] => []
  | oldest :: rest =>
      if maxEntries ≤ rest.length + 1 ∨ room < total size (oldest :: rest) then
        fit size maxEntries room rest
      else oldest :: rest

variable [DecidableEq K]

/-- Take a key out. -/
def remove (key : K) (entries : List (K × V)) : List (K × V) :=
  entries.filter fun entry => entry.1 ≠ key

/-- The value of a key. -/
def lookup (key : K) (entries : List (K × V)) : Option (K × V) :=
  entries.find? fun entry => entry.1 = key

/-- Use a key. -/
def use (key : K) (entries : List (K × V)) : List (K × V) :=
  match lookup key entries with
  | some entry => remove key entries ++ [entry]
  | none => entries

/-- Put in a value as the last one used, in the place of any other of its key. -/
def insert (size : V → Nat) (maxEntries room : Nat) (key : K) (value : V) (entries : List (K × V)) :
    List (K × V) :=
  fit size maxEntries room (remove key entries) ++ [(key, value)]

end Recency
