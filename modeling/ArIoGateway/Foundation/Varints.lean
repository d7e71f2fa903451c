import ArIoGateway.Foundation.Octets

/-!
# Integers in groups of seven bits

Signed integers as natural numbers, zigzag, and natural numbers as groups of seven bits with the
least group first.  The number of groups is a parameter: a writer may pad a number.
-/

namespace Varints

open Octets

/-- The natural number of a signed integer: the sign is the lowest bit. -/
def zigzag : Int → Nat
  | .ofNat value => 2 * value
  | .negSucc value => 2 * value + 1

/-- The signed integer of a natural number. -/
def unzigzag (encoded : Nat) : Int :=
  if encoded % 2 = 0 then (encoded / 2 : Nat) else -((encoded / 2 : Nat) : Int) - 1

theorem zigzag_unzigzag (encoded : Nat) : zigzag (unzigzag encoded) = encoded := by
  unfold unzigzag
  by_cases even : encoded % 2 = 0
  · rw [if_pos even]
    show 2 * (encoded / 2) = encoded
    omega
  · rw [if_neg even, show -((encoded / 2 : Nat) : Int) - 1 = Int.negSucc (encoded / 2) by omega]
    show 2 * (encoded / 2) + 1 = encoded
    omega

theorem unzigzag_zigzag (value : Int) : unzigzag (zigzag value) = value := by
  unfold unzigzag
  cases value with
  | ofNat value =>
      rw [zigzag, if_pos (by omega), show 2 * value / 2 = value by omega]
      rfl
  | negSucc value =>
      rw [zigzag, if_neg (by omega), show (2 * value + 1) / 2 = value by omega]
      omega

/-- A number in a number of groups of seven bits; the last group has no continuation bit. -/
def groups : Nat → Nat → Bytes
  | 0, _ => []
  | 1, value => [UInt8.ofNat value]
  | width + 2, value => UInt8.ofNat (value % 128 + 128) :: groups (width + 1) (value / 128)

@[simp] theorem length_groups (width value : Nat) : (groups width value).length = width := by
  induction width generalizing value with
  | zero => rfl
  | succ width induction =>
      cases width with
      | zero => rfl
      | succ width => rw [groups, List.length_cons, induction]

/-- The groups of a number begin with a byte that tells whether there are more. -/
theorem groups_eq_cons {width value : Nat} {byte : UInt8} {rest : Bytes}
    (fits : value < 128 ^ (width + 1)) (split : groups (width + 1) value = byte :: rest) :
    (byte.toNat < 128 ∧ width = 0 ∧ value = byte.toNat ∧ rest = []) ∨
      (128 ≤ byte.toNat ∧ 0 < width ∧ value = byte.toNat - 128 + 128 * (value / 128) ∧
        value / 128 < 128 ^ width ∧ rest = groups width (value / 128)) := by
  cases width with
  | zero =>
      obtain ⟨rfl, rfl⟩ := List.cons.inj split
      have number : (UInt8.ofNat value).toNat = value := by
        rw [UInt8.toNat_ofNat']
        omega
      exact .inl ⟨by omega, rfl, number.symm, rfl⟩
  | succ width =>
      obtain ⟨rfl, rfl⟩ := List.cons.inj split
      have number : (UInt8.ofNat (value % 128 + 128)).toNat = value % 128 + 128 := by
        rw [UInt8.toNat_ofNat']
        omega
      have quotient : value / 128 < 128 ^ (width + 1) :=
        Nat.div_lt_of_lt_mul (by rw [Nat.mul_comm, ← Nat.pow_succ]; exact fits)
      exact .inr ⟨by omega, by omega, by omega, quotient, rfl⟩

/-- A byte with the continuation bit in front of groups makes the groups of a number. -/
theorem groups_cons {width value : Nat} {byte : UInt8} (more : 128 ≤ byte.toNat)
    (positive : 0 < width) :
    groups (width + 1) (byte.toNat - 128 + 128 * value) = byte :: groups width value := by
  obtain ⟨width, rfl⟩ : ∃ rest, width = rest + 1 := ⟨width - 1, by omega⟩
  have small := byte.toNat_lt
  have low : (byte.toNat - 128 + 128 * value) % 128 + 128 = byte.toNat := by omega
  rw [groups, low, UInt8.ofNat_toNat,
    show (byte.toNat - 128 + 128 * value) / 128 = value by omega]

end Varints
