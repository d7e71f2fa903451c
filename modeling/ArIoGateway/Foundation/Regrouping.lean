import Mathlib.Data.Nat.Digits.Lemmas

/-!
# Bits in groups of another width

A string of digits of one width is turned into digits of another width through a buffer of bits that
have come in and have not gone out yet.  What has come in is at every moment what has gone out with
the buffer behind it, so that two such conversions undo each other.
-/

namespace Regrouping

/-- The number that digits of a width of bits spell, with the highest digit first. -/
def spelled (width : Nat) (digits : List Nat) : Nat := Nat.ofDigits (2 ^ width) digits.reverse

@[simp] theorem spelled_nil (width : Nat) : spelled width [] = 0 := by
  rw [spelled, List.reverse_nil, Nat.ofDigits_nil]

@[simp] theorem spelled_concat (width : Nat) (digits : List Nat) (digit : Nat) :
    spelled width (digits ++ [digit]) = spelled width digits * 2 ^ width + digit := by
  rw [spelled, List.reverse_concat, Nat.ofDigits_cons, spelled]
  ring

/-- As many digits are told by their number. -/
theorem spelled_inj {width : Nat} (positive : 0 < width) {left right : List Nat}
    (lengths : left.length = right.length) (leftSmall : ∀ digit ∈ left, digit < 2 ^ width)
    (rightSmall : ∀ digit ∈ right, digit < 2 ^ width)
    (same : spelled width left = spelled width right) : left = right := by
  apply List.reverse_injective
  apply Nat.ofDigits_inj_of_len_eq (Nat.one_lt_two_pow positive.ne') (by simpa using lengths)
  · exact fun digit member => leftSmall digit (List.mem_reverse.mp member)
  · exact fun digit member => rightSmall digit (List.mem_reverse.mp member)
  · exact same

/-- Digits that have come in, digits that have gone out, and the bits between them. -/
structure Holds (inWidth outWidth : Nat) (input output : List Nat) (buffer bits : Nat) : Prop where
  value : spelled inWidth input = spelled outWidth output * 2 ^ bits + buffer
  buffer : buffer < 2 ^ bits
  small : ∀ digit ∈ output, digit < 2 ^ outWidth
  count : inWidth * input.length = outWidth * output.length + bits

namespace Holds

variable {inWidth outWidth buffer bits : Nat} {input output : List Nat}

theorem start (inWidth outWidth : Nat) : Holds inWidth outWidth [] [] 0 0 :=
  ⟨by simp, by simp, by simp, by simp⟩

/-- A digit comes in behind the buffer. -/
theorem push (holds : Holds inWidth outWidth input output buffer bits) {digit : Nat}
    (small : digit < 2 ^ inWidth) :
    Holds inWidth outWidth (input ++ [digit]) output (buffer * 2 ^ inWidth + digit)
      (bits + inWidth) where
  value := by
    rw [spelled_concat, holds.value, pow_add]
    ring
  buffer := by
    have room : (buffer + 1) * 2 ^ inWidth ≤ 2 ^ bits * 2 ^ inWidth :=
      Nat.mul_le_mul_right _ holds.buffer
    rw [pow_add]
    rw [Nat.add_mul, Nat.one_mul] at room
    omega
  small := holds.small
  count := by
    rw [List.length_append, List.length_singleton, Nat.mul_add, holds.count]
    omega

/-- The front of the buffer goes out. -/
theorem pop (holds : Holds inWidth outWidth input output buffer (bits + outWidth)) :
    Holds inWidth outWidth input (output ++ [buffer / 2 ^ bits]) (buffer % 2 ^ bits) bits where
  value := by
    have parts := Nat.div_add_mod buffer (2 ^ bits)
    rw [spelled_concat, holds.value, pow_add]
    calc spelled outWidth output * (2 ^ bits * 2 ^ outWidth) + buffer
        = spelled outWidth output * (2 ^ bits * 2 ^ outWidth) +
            (2 ^ bits * (buffer / 2 ^ bits) + buffer % 2 ^ bits) := by rw [parts]
      _ = (spelled outWidth output * 2 ^ outWidth + buffer / 2 ^ bits) * 2 ^ bits +
            buffer % 2 ^ bits := by ring
  buffer := Nat.mod_lt _ (Nat.two_pow_pos bits)
  small := by
    intro digit member
    rcases List.mem_append.mp member with old | new
    · exact holds.small digit old
    · rw [List.mem_singleton.mp new]
      apply Nat.div_lt_of_lt_mul
      rw [← pow_add]
      exact holds.buffer
  count := by
    rw [List.length_append, List.length_singleton, Nat.mul_add, holds.count]
    omega

/-- The front of a buffer with other bits before it goes out. -/
theorem pop_mod
    (holds : Holds inWidth outWidth input output (buffer % 2 ^ (bits + outWidth))
      (bits + outWidth)) :
    Holds inWidth outWidth input (output ++ [buffer / 2 ^ bits % 2 ^ outWidth])
      (buffer % 2 ^ bits) bits := by
  have popped := holds.pop
  rwa [pow_add, Nat.mod_mul_right_div_self, Nat.mod_mul_right_mod] at popped

/-- Zeros come in behind the buffer until a digit can go out. -/
theorem flush (holds : Holds inWidth outWidth input output buffer bits) (fits : bits ≤ outWidth) :
    spelled outWidth (output ++ [buffer * 2 ^ (outWidth - bits)]) =
      spelled inWidth input * 2 ^ (outWidth - bits) ∧
    buffer * 2 ^ (outWidth - bits) < 2 ^ outWidth := by
  have split : 2 ^ outWidth = 2 ^ bits * 2 ^ (outWidth - bits) := by
    rw [← pow_add, Nat.add_sub_cancel' fits]
  refine ⟨?_, ?_⟩
  · rw [spelled_concat, holds.value, split]
    ring
  · rw [split]
    exact Nat.mul_lt_mul_of_pos_right holds.buffer (Nat.two_pow_pos _)

end Holds

end Regrouping
