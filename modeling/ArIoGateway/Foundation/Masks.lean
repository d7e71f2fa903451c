import ArIoGateway.Foundation.Octets

/-!
# Masks

Bytes are masked by the exclusive or with other bytes, as far as both reach.
-/

namespace Octets

/-- Bytes under a mask. -/
def xorBytes (left right : Bytes) : Bytes := List.zipWith (· ^^^ ·) left right

theorem length_xorBytes {left right : Bytes} (same : left.length = right.length) :
    (xorBytes left right).length = left.length := by
  rw [xorBytes, List.length_zipWith, same, Nat.min_self]

theorem xorBytes_append {left right : Bytes} (leftRest rightRest : Bytes)
    (same : left.length = right.length) :
    xorBytes (left ++ leftRest) (right ++ rightRest) =
      xorBytes left right ++ xorBytes leftRest rightRest :=
  List.zipWith_append same

/-- A mask is taken off by applying it again. -/
theorem xorBytes_xorBytes {bytes mask : Bytes} (same : bytes.length = mask.length) :
    xorBytes (xorBytes bytes mask) mask = bytes := by
  induction bytes generalizing mask with
  | nil => rfl
  | cons byte bytes induction =>
      cases mask with
      | nil => cases same
      | cons other mask =>
          have rest := induction (Nat.succ.inj same)
          rw [xorBytes, xorBytes] at rest ⊢
          rw [List.zipWith_cons_cons, List.zipWith_cons_cons, rest, UInt8.xor_assoc, UInt8.xor_self,
            UInt8.xor_zero]

theorem xorBytes_nil (mask : Bytes) : xorBytes [] mask = [] := rfl

/-- Only as much of a mask is used as there are bytes. -/
theorem xorBytes_take {bytes mask : Bytes} {count : Nat} (enough : bytes.length ≤ count) :
    xorBytes bytes (mask.take count) = xorBytes bytes mask := by
  have short : (xorBytes bytes mask).length ≤ count := by
    rw [xorBytes, List.length_zipWith]
    omega
  rw [← List.take_of_length_le short, xorBytes, xorBytes, List.take_zipWith,
    List.take_of_length_le enough]

end Octets
