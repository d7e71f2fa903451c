import ArIoGateway.Foundation.Octets

/-!
# Segments of a string of bytes

A reader that moves a cursor over a string takes one segment after another.  A segment lies between
two places that a machine word can address.
-/

open Octets

/-- The bytes between two places of a string. -/
structure Segment (bytes : Bytes) (start : Nat) (part : Bytes) (finish : Nat) : Prop where
  length : start + part.length = finish
  inside : finish ≤ bytes.length
  addressable : finish < 2 ^ 64
  holds : (bytes.drop start).take part.length = part

namespace Segment

variable {bytes first second : Bytes} {start middle finish : Nat}

theorem nil (inside : start ≤ bytes.length) (addressable : start < 2 ^ 64) :
    Segment bytes start [] start :=
  ⟨rfl, inside, addressable, rfl⟩

theorem append (left : Segment bytes start first middle)
    (right : Segment bytes middle second finish) :
    Segment bytes start (first ++ second) finish where
  length := by
    rw [List.length_append, ← right.length, ← left.length, Nat.add_assoc]
  inside := right.inside
  addressable := right.addressable
  holds := by
    rw [List.length_append, List.take_add, left.holds, List.drop_drop, left.length, right.holds]

/-- A segment of two parts is two segments. -/
theorem split (whole : Segment bytes start (first ++ second) finish) :
    ∃ middle, Segment bytes start first middle ∧ Segment bytes middle second finish := by
  have length := whole.length
  have inside := whole.inside
  have addressable := whole.addressable
  have holds := whole.holds
  rw [List.length_append] at length
  rw [List.length_append, List.take_add, List.drop_drop] at holds
  have widths : ((bytes.drop start).take first.length).length = first.length := by
    rw [List.length_take, List.length_drop]
    omega
  obtain ⟨left, right⟩ := List.append_inj holds widths
  exact ⟨start + first.length, ⟨rfl, by omega, by omega, left⟩, by omega, inside, addressable,
    right⟩

/-- The segment of a whole string. -/
theorem whole_iff {part : Bytes} (long : bytes.length < 2 ^ 64) :
    Segment bytes 0 part bytes.length ↔ part = bytes := by
  constructor
  · intro segment
    have length := segment.length
    have holds := segment.holds
    rw [Nat.zero_add] at length
    rw [length, List.drop_zero, List.take_length] at holds
    exact holds.symm
  · rintro rfl
    exact ⟨Nat.zero_add _, le_rfl, long, by rw [List.drop_zero, List.take_length]⟩

/-- What a segment that reaches the end of a string holds. -/
theorem eq_drop {part : Bytes} (segment : Segment bytes start part bytes.length) :
    part = bytes.drop start := by
  have length := segment.length
  have holds := segment.holds
  rw [List.take_of_length_le (by rw [List.length_drop]; omega)] at holds
  exact holds.symm

/-- The rest of a string from a segment on. -/
theorem drop_eq {part : Bytes} (segment : Segment bytes start part finish) :
    bytes.drop start = part ++ bytes.drop finish := by
  rw [← segment.length, ← List.drop_drop]
  conv_lhs => rw [← List.take_append_drop part.length (bytes.drop start), segment.holds]

theorem of_drop {part : Bytes} (rest : part = bytes.drop start) (inside : start ≤ bytes.length)
    (long : bytes.length < 2 ^ 64) : Segment bytes start part bytes.length where
  length := by
    rw [rest, List.length_drop]
    omega
  inside := le_rfl
  addressable := long
  holds := by rw [rest, List.take_length]

end Segment
