import Mathlib

/-!
# Byte strings and big-endian integers

Fixed-width and minimal big-endian encodings of natural numbers, with their readings.  The
minimal encoding of zero is one zero byte.
-/

/-- A byte string. -/
abbrev Bytes := List UInt8

/-- Byte strings of one fixed length. -/
abbrev FixedBytes (width : Nat) := { bytes : Bytes // bytes.length = width }

/-- Byte strings are compared lawfully. -/
instance lawfulBytes : @LawfulBEq (List UInt8) (@List.instBEq UInt8 instBEqOfDecidableEq) :=
  inferInstance

/-- Digests are compared lawfully. -/
instance lawfulDigests : @LawfulBEq (FixedBytes 32) Subtype.instBEq := inferInstance

/-- There are two places. -/
instance twoPlaces : NeZero (1 + 1) := ⟨by decide⟩

theorem length_zeros : (List.replicate 32 (0 : UInt8)).length = 32 := rfl

namespace Octets

@[simp] theorem length_val {width : Nat} (bytes : FixedBytes width) : bytes.val.length = width :=
  bytes.property

/-- The low `width` bytes of a number, most significant first. -/
def bigEndian : Nat → Nat → Bytes
  | 0, _ => []
  | width + 1, value => bigEndian width (value / 256) ++ [UInt8.ofNat (value % 256)]

/-- The number read from big-endian bytes. -/
def ofBigEndian (bytes : Bytes) : Nat :=
  bytes.foldl (fun value byte => value * 256 + byte.toNat) 0

/-- The shortest big-endian encoding of a number, with one byte for zero. -/
def minimalBytes (value : Nat) : Bytes :=
  if value = 0 then [0] else ((Nat.digits 256 value).map UInt8.ofNat).reverse

@[simp] theorem length_bigEndian (width value : Nat) : (bigEndian width value).length = width := by
  induction width generalizing value with
  | zero => rfl
  | succ width induction => simp [bigEndian, induction]

@[simp] theorem ofBigEndian_nil : ofBigEndian [] = 0 := rfl

@[simp] theorem ofBigEndian_snoc (bytes : Bytes) (byte : UInt8) :
    ofBigEndian (bytes ++ [byte]) = ofBigEndian bytes * 256 + byte.toNat := by
  simp [ofBigEndian, List.foldl_append]

/-- Fixed-width bytes are read back as the encoded number. -/
theorem ofBigEndian_bigEndian {width value : Nat} (bound : value < 256 ^ width) :
    ofBigEndian (bigEndian width value) = value := by
  induction width generalizing value with
  | zero =>
      have zero : value = 0 := by simpa using bound
      simp [bigEndian, zero]
  | succ width induction =>
      have quotient : value / 256 < 256 ^ width := by
        rw [Nat.div_lt_iff_lt_mul (by decide)]
        simpa [Nat.pow_succ] using bound
      have byte : (UInt8.ofNat (value % 256)).toNat = value % 256 := by
        simp
      rw [bigEndian, ofBigEndian_snoc, induction quotient, byte]
      omega

theorem ofBigEndian_reverse_digits (digits : List Nat) (small : ∀ digit ∈ digits, digit < 256) :
    ofBigEndian (digits.map UInt8.ofNat).reverse = Nat.ofDigits 256 digits := by
  induction digits with
  | nil => rfl
  | cons digit digits induction =>
      have head : (UInt8.ofNat digit).toNat = digit := by
        have := small digit List.mem_cons_self
        simp [Nat.mod_eq_of_lt this]
      have tail := induction fun other member => small other (List.mem_cons_of_mem _ member)
      rw [List.map_cons, List.reverse_cons, ofBigEndian_snoc, tail, head, Nat.ofDigits_cons]
      ring

/-- The shortest bytes are read back as the encoded number. -/
@[simp] theorem ofBigEndian_minimalBytes (value : Nat) :
    ofBigEndian (minimalBytes value) = value := by
  unfold minimalBytes
  split
  · next zero => simp [zero, ofBigEndian]
  · rw [ofBigEndian_reverse_digits _ fun digit member => Nat.digits_lt_base (by decide) member]
    exact Nat.ofDigits_digits 256 value

theorem ofBigEndian_lt (bytes : Bytes) : ofBigEndian bytes < 256 ^ bytes.length := by
  induction bytes using List.reverseRecOn with
  | nil => simp
  | append_singleton bytes byte induction =>
      have small := byte.toNat_lt
      rw [ofBigEndian_snoc, List.length_append, List.length_singleton, Nat.pow_succ]
      omega

/-- Bytes of one length are told apart by the number that they spell. -/
theorem ofBigEndian_inj {left right : Bytes} (width : left.length = right.length)
    (same : ofBigEndian left = ofBigEndian right) : left = right := by
  induction left using List.reverseRecOn generalizing right with
  | nil => exact (List.length_eq_zero_iff.mp width.symm).symm
  | append_singleton left byte induction =>
      cases right using List.reverseRecOn with
      | nil => simp at width
      | append_singleton right other =>
          have byteBound := byte.toNat_lt
          have otherBound := other.toNat_lt
          rw [ofBigEndian_snoc, ofBigEndian_snoc] at same
          rw [List.length_append, List.length_append, List.length_singleton, List.length_singleton,
            Nat.add_right_cancel_iff] at width
          obtain rfl : byte = other := UInt8.toNat_inj.mp (by omega)
          rw [induction width (by omega)]

theorem minimalBytes_injective : Function.Injective minimalBytes := by
  intro left right same
  rw [← ofBigEndian_minimalBytes left, same, ofBigEndian_minimalBytes]

theorem bigEndian_inj {width left right : Nat} (leftBound : left < 256 ^ width)
    (rightBound : right < 256 ^ width) (same : bigEndian width left = bigEndian width right) :
    left = right := by
  rw [← ofBigEndian_bigEndian leftBound, same, ofBigEndian_bigEndian rightBound]

/-- The last bytes of a wider encoding are the narrower encoding. -/
theorem drop_bigEndian (extra width value : Nat) :
    (bigEndian (extra + width) value).drop extra = bigEndian width value := by
  induction width generalizing value with
  | zero => exact List.drop_eq_nil_of_le (by simp)
  | succ width induction =>
      rw [← Nat.add_assoc, bigEndian, List.drop_append_of_le_length (by simp), induction]
      rfl

/-- Leading zero bytes do not change the number that is read. -/
theorem ofBigEndian_zeros_append (count : Nat) (bytes : Bytes) :
    ofBigEndian (List.replicate count 0 ++ bytes) = ofBigEndian bytes := by
  induction count with
  | zero => rfl
  | succ count induction =>
      simpa [ofBigEndian, List.replicate_succ] using induction

theorem minimalBytes_ne_nil (value : Nat) : minimalBytes value ≠ [] := by
  unfold minimalBytes
  split
  · simp
  · next nonzero => simpa [Nat.digits_ne_nil_iff_ne_zero] using nonzero

/-- The ASCII decimal digits of a number, without leading zeros. -/
def decimal (value : Nat) : Bytes :=
  if value = 0 then [48]
  else ((Nat.digits 10 value).map fun digit => UInt8.ofNat (48 + digit)).reverse

/-- The number read from ASCII decimal digits. -/
def ofDecimal (text : Bytes) : Nat :=
  text.foldl (fun value digit => value * 10 + (digit.toNat - 48)) 0

theorem ofDecimal_snoc (text : Bytes) (digit : UInt8) :
    ofDecimal (text ++ [digit]) = ofDecimal text * 10 + (digit.toNat - 48) := by
  simp [ofDecimal, List.foldl_append]

theorem ofDecimal_reverse_digits (digits : List Nat) (small : ∀ digit ∈ digits, digit < 10) :
    ofDecimal (digits.map fun digit => UInt8.ofNat (48 + digit)).reverse =
      Nat.ofDigits 10 digits := by
  induction digits with
  | nil => rfl
  | cons digit digits induction =>
      have bound := small digit List.mem_cons_self
      have head : (UInt8.ofNat (48 + digit)).toNat - 48 = digit := by
        have : 48 + digit < 256 := by omega
        simp [Nat.mod_eq_of_lt this]
      have tail := induction fun other member => small other (List.mem_cons_of_mem _ member)
      rw [List.map_cons, List.reverse_cons, ofDecimal_snoc, tail, head, Nat.ofDigits_cons]
      ring

@[simp] theorem ofDecimal_decimal (value : Nat) : ofDecimal (decimal value) = value := by
  unfold decimal
  split
  · next zero => simp [zero, ofDecimal]
  · rw [ofDecimal_reverse_digits _ fun digit member => Nat.digits_lt_base (by decide) member]
    exact Nat.ofDigits_digits 10 value

theorem decimal_injective : Function.Injective decimal := by
  intro left right same
  rw [← ofDecimal_decimal left, same, ofDecimal_decimal]

theorem decimal_ne_nil (value : Nat) : decimal value ≠ [] := by
  unfold decimal
  split
  · simp
  · next nonzero => simpa [Nat.digits_ne_nil_iff_ne_zero] using nonzero

/-- Decimal digits without a superfluous zero are those of their number. -/
theorem decimal_ofDecimal {text : Bytes} (nonempty : text ≠ [])
    (digits : ∀ byte ∈ text, 48 ≤ byte.toNat ∧ byte.toNat ≤ 57)
    (minimal : text.head? = some 48 → text = [48]) : decimal (ofDecimal text) = text := by
  obtain ⟨first, rest, rfl⟩ := List.exists_cons_of_ne_nil nonempty
  by_cases zero : first = 48
  · rw [minimal (congrArg some zero)]
    rfl
  · have spelled : (((first :: rest).map fun byte => byte.toNat - 48).reverse.map fun digit =>
        UInt8.ofNat (48 + digit)).reverse = first :: rest := by
      rw [List.map_reverse, List.reverse_reverse, List.map_map]
      refine (List.map_congr_left fun byte member => ?_).trans (List.map_id _)
      have bounds := digits byte member
      rw [Function.comp_apply, Nat.add_sub_cancel' bounds.1, UInt8.ofNat_toNat, id]
    have small : ∀ digit ∈ ((first :: rest).map fun byte => byte.toNat - 48).reverse,
        digit < 10 := by
      intro digit member
      obtain ⟨byte, inside, rfl⟩ := List.mem_map.mp (List.mem_reverse.mp member)
      have bounds := digits byte inside
      omega
    have expansion : Nat.digits 10 (ofDecimal (first :: rest)) =
        ((first :: rest).map fun byte => byte.toNat - 48).reverse := by
      rw [← spelled, ofDecimal_reverse_digits _ small, spelled]
      apply Nat.digits_ofDigits 10 (by decide) _ small
      intro some
      have bounds := digits first List.mem_cons_self
      have other : first.toNat ≠ 48 := fun same => zero (UInt8.toNat_inj.mp same)
      simp only [List.map_cons, List.reverse_cons, List.getLast_append_singleton]
      omega
    have positive : ofDecimal (first :: rest) ≠ 0 := by
      intro none
      rw [none, Nat.digits_zero] at expansion
      simp at expansion
    rw [decimal, if_neg positive, expansion, spelled]

/-- A number below a power of ten has no more digits than the exponent. -/
theorem length_decimal_le {value digits : Nat} (positive : 0 < digits)
    (bound : value < 10 ^ digits) : (decimal value).length ≤ digits := by
  unfold decimal
  split
  · simpa using Nat.succ_le_of_lt positive
  · simpa using (Nat.digits_length_le_iff (by decide) value).mpr bound

end Octets
