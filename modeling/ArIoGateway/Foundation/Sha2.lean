import ArIoGateway.Foundation.Octets

/-!
# The SHA-2 family

An executable definition of the two SHA-2 digests of 32 and 48 bytes, from one compression
function with parameters.  A message is padded to whole blocks, and every block updates eight
registers.
-/

namespace Sha2

open Octets

/-- The eight working registers. -/
structure Registers where
  a : Nat
  b : Nat
  c : Nat
  d : Nat
  e : Nat
  f : Nat
  g : Nat
  h : Nat

/-- Sixteen consecutive words of the schedule. -/
structure Window where
  w0 : Nat
  w1 : Nat
  w2 : Nat
  w3 : Nat
  w4 : Nat
  w5 : Nat
  w6 : Nat
  w7 : Nat
  w8 : Nat
  w9 : Nat
  w10 : Nat
  w11 : Nat
  w12 : Nat
  w13 : Nat
  w14 : Nat
  w15 : Nat

/-- Three shift distances of one mixing function. -/
structure Shifts where
  first : Nat
  second : Nat
  third : Nat

/-- The parameters in which the members of the family differ. -/
structure Variant where
  /-- Bits of a register. -/
  wordBits : Nat
  /-- The number of values of a register. -/
  modulus : Nat
  /-- Bytes of the message length in the padding. -/
  lengthBytes : Nat
  /-- Mixing of an older schedule word. -/
  sigma0 : Shifts
  /-- Mixing of a newer schedule word. -/
  sigma1 : Shifts
  /-- Mixing of register `a`. -/
  sum0 : Shifts
  /-- Mixing of register `e`. -/
  sum1 : Shifts
  /-- One constant for each round. -/
  constants : List Nat
  /-- Registers before the first block. -/
  initial : Registers

/-- Continue with an evaluated number; without it the kernel copies the computation instead of
its result. -/
def strict {α : Type} (value : Nat) (next : Nat → α) : α :=
  match value with
  | 0 => next 0
  | value + 1 => next (value + 1)

/-- Read a big-endian word and continue with it and the bytes behind it. -/
def readWord {α : Type} : Bytes → Nat → Nat → (Nat → Bytes → α) → α
  | byte :: bytes, width + 1, value, next =>
      readWord bytes width (Nat.add (Nat.mul value 256) byte.toNat) next
  | bytes, _, value, next => strict value fun value => next value bytes

/-- Read the sixteen words of a block and continue with them and the bytes behind them. -/
def readWindow {α : Type} (width : Nat) (bytes : Bytes) (next : Window → Bytes → α) : α :=
  readWord bytes width 0 fun w0 bytes =>
  readWord bytes width 0 fun w1 bytes =>
  readWord bytes width 0 fun w2 bytes =>
  readWord bytes width 0 fun w3 bytes =>
  readWord bytes width 0 fun w4 bytes =>
  readWord bytes width 0 fun w5 bytes =>
  readWord bytes width 0 fun w6 bytes =>
  readWord bytes width 0 fun w7 bytes =>
  readWord bytes width 0 fun w8 bytes =>
  readWord bytes width 0 fun w9 bytes =>
  readWord bytes width 0 fun w10 bytes =>
  readWord bytes width 0 fun w11 bytes =>
  readWord bytes width 0 fun w12 bytes =>
  readWord bytes width 0 fun w13 bytes =>
  readWord bytes width 0 fun w14 bytes =>
  readWord bytes width 0 fun w15 bytes =>
  next ⟨w0, w1, w2, w3, w4, w5, w6, w7, w8, w9, w10, w11, w12, w13, w14, w15⟩ bytes

namespace Variant

/-- Exclusive or of three words. -/
def xor3 (first second third : Nat) : Nat := Nat.xor (Nat.xor first second) third

/-- Rotate a register to the right. -/
def rotate (variant : Variant) (word distance : Nat) : Nat :=
  Nat.lor (Nat.shiftRight word distance)
    (Nat.mod (Nat.shiftLeft word (Nat.sub variant.wordBits distance)) variant.modulus)

/-- Two rotations and a shift, for schedule words. -/
def mixSchedule (variant : Variant) (shifts : Shifts) (word : Nat) : Nat :=
  xor3 (variant.rotate word shifts.first) (variant.rotate word shifts.second)
    (Nat.shiftRight word shifts.third)

/-- Three rotations, for registers. -/
def mixRegister (variant : Variant) (shifts : Shifts) (word : Nat) : Nat :=
  xor3 (variant.rotate word shifts.first) (variant.rotate word shifts.second)
    (variant.rotate word shifts.third)

/-- The words of the schedule from a window on; `count` words lie behind the window. -/
def schedule (variant : Variant) : Nat → Window → List Nat
  | 0, ⟨w0, w1, w2, w3, w4, w5, w6, w7, w8, w9, w10, w11, w12, w13, w14, w15⟩ =>
      [w0, w1, w2, w3, w4, w5, w6, w7, w8, w9, w10, w11, w12, w13, w14, w15]
  | count + 1, ⟨w0, w1, w2, w3, w4, w5, w6, w7, w8, w9, w10, w11, w12, w13, w14, w15⟩ =>
      let word := Nat.add (Nat.add (variant.mixSchedule variant.sigma1 w14) w9)
        (Nat.add (variant.mixSchedule variant.sigma0 w1) w0)
      strict (Nat.mod word variant.modulus) fun w16 => w0 :: variant.schedule count
        ⟨w1, w2, w3, w4, w5, w6, w7, w8, w9, w10, w11, w12, w13, w14, w15, w16⟩

/-- Run the rounds, each with its constant and schedule word. -/
def rounds (variant : Variant) : List (Nat × Nat) → Registers → Registers
  | [], state => state
  | input :: inputs, ⟨a, b, c, d, e, f, g, h⟩ =>
      let complement := Nat.sub (Nat.pred variant.modulus) e
      let choice := Nat.xor (Nat.land e f) (Nat.land complement g)
      let majority := xor3 (Nat.land a b) (Nat.land a c) (Nat.land b c)
      let mixed := Nat.add (Nat.add h (variant.mixRegister variant.sum1 e)) choice
      strict (Nat.add mixed (Nat.add input.1 input.2)) fun first =>
      let second := Nat.add (variant.mixRegister variant.sum0 a) majority
      strict (Nat.mod (Nat.add first second) variant.modulus) fun newA =>
      strict (Nat.mod (Nat.add d first) variant.modulus) fun newE =>
      variant.rounds inputs ⟨newA, a, b, c, newE, e, f, g⟩

/-- Add the registers of two states. -/
def add (variant : Variant) (left right : Registers) : Registers :=
  strict (Nat.mod (Nat.add left.a right.a) variant.modulus) fun a =>
  strict (Nat.mod (Nat.add left.b right.b) variant.modulus) fun b =>
  strict (Nat.mod (Nat.add left.c right.c) variant.modulus) fun c =>
  strict (Nat.mod (Nat.add left.d right.d) variant.modulus) fun d =>
  strict (Nat.mod (Nat.add left.e right.e) variant.modulus) fun e =>
  strict (Nat.mod (Nat.add left.f right.f) variant.modulus) fun f =>
  strict (Nat.mod (Nat.add left.g right.g) variant.modulus) fun g =>
  strict (Nat.mod (Nat.add left.h right.h) variant.modulus) fun h =>
  ⟨a, b, c, d, e, f, g, h⟩

/-- Update the registers with the words of a message block. -/
def compress (variant : Variant) (state : Registers) (window : Window) : Registers :=
  let words := variant.schedule (variant.constants.length - 16) window
  variant.add state (variant.rounds (variant.constants.zip words) state)

/-- Update the registers with message blocks; `count` is their number. -/
def blocks (variant : Variant) : Nat → Bytes → Registers → Registers
  | 0, _, state => state
  | count + 1, bytes, state =>
      readWindow (variant.wordBits / 8) bytes fun window bytes =>
        match variant.compress state window with
        | ⟨a, b, c, d, e, f, g, h⟩ => variant.blocks count bytes ⟨a, b, c, d, e, f, g, h⟩

/-- Pad a message to whole blocks of sixteen words. -/
def pad (variant : Variant) (message : Bytes) : Bytes :=
  let blockBytes := 2 * variant.wordBits
  let zeros := (2 * blockBytes - 1 - variant.lengthBytes - message.length % blockBytes) % blockBytes
  message ++ 128 :: List.replicate zeros 0 ++ bigEndian variant.lengthBytes (8 * message.length)

/-- The registers after the whole message. -/
def finalState (variant : Variant) (message : Bytes) : Registers :=
  let padded := variant.pad message
  variant.blocks (padded.length / (2 * variant.wordBits)) padded variant.initial

end Variant

/-- Parameters of the digest of 32 bytes. -/
def variant256 : Variant where
  wordBits := 32
  modulus := 0x100000000
  lengthBytes := 8
  sigma0 := ⟨7, 18, 3⟩
  sigma1 := ⟨17, 19, 10⟩
  sum0 := ⟨2, 13, 22⟩
  sum1 := ⟨6, 11, 25⟩
  constants :=
    [0x428a2f98, 0x71374491, 0xb5c0fbcf, 0xe9b5dba5, 0x3956c25b, 0x59f111f1, 0x923f82a4, 0xab1c5ed5,
     0xd807aa98, 0x12835b01, 0x243185be, 0x550c7dc3, 0x72be5d74, 0x80deb1fe, 0x9bdc06a7, 0xc19bf174,
     0xe49b69c1, 0xefbe4786, 0xfc19dc6, 0x240ca1cc, 0x2de92c6f, 0x4a7484aa, 0x5cb0a9dc, 0x76f988da,
     0x983e5152, 0xa831c66d, 0xb00327c8, 0xbf597fc7, 0xc6e00bf3, 0xd5a79147, 0x6ca6351, 0x14292967,
     0x27b70a85, 0x2e1b2138, 0x4d2c6dfc, 0x53380d13, 0x650a7354, 0x766a0abb, 0x81c2c92e, 0x92722c85,
     0xa2bfe8a1, 0xa81a664b, 0xc24b8b70, 0xc76c51a3, 0xd192e819, 0xd6990624, 0xf40e3585, 0x106aa070,
     0x19a4c116, 0x1e376c08, 0x2748774c, 0x34b0bcb5, 0x391c0cb3, 0x4ed8aa4a, 0x5b9cca4f, 0x682e6ff3,
     0x748f82ee, 0x78a5636f, 0x84c87814, 0x8cc70208, 0x90befffa, 0xa4506ceb, 0xbef9a3f7, 0xc67178f2]
  initial := ⟨0x6a09e667, 0xbb67ae85, 0x3c6ef372, 0xa54ff53a,
    0x510e527f, 0x9b05688c, 0x1f83d9ab, 0x5be0cd19⟩

/-- Parameters of the digest of 48 bytes. -/
def variant384 : Variant where
  wordBits := 64
  modulus := 0x10000000000000000
  lengthBytes := 16
  sigma0 := ⟨1, 8, 7⟩
  sigma1 := ⟨19, 61, 6⟩
  sum0 := ⟨28, 34, 39⟩
  sum1 := ⟨14, 18, 41⟩
  constants :=
    [0x428a2f98d728ae22, 0x7137449123ef65cd, 0xb5c0fbcfec4d3b2f, 0xe9b5dba58189dbbc,
     0x3956c25bf348b538, 0x59f111f1b605d019, 0x923f82a4af194f9b, 0xab1c5ed5da6d8118,
     0xd807aa98a3030242, 0x12835b0145706fbe, 0x243185be4ee4b28c, 0x550c7dc3d5ffb4e2,
     0x72be5d74f27b896f, 0x80deb1fe3b1696b1, 0x9bdc06a725c71235, 0xc19bf174cf692694,
     0xe49b69c19ef14ad2, 0xefbe4786384f25e3, 0xfc19dc68b8cd5b5, 0x240ca1cc77ac9c65,
     0x2de92c6f592b0275, 0x4a7484aa6ea6e483, 0x5cb0a9dcbd41fbd4, 0x76f988da831153b5,
     0x983e5152ee66dfab, 0xa831c66d2db43210, 0xb00327c898fb213f, 0xbf597fc7beef0ee4,
     0xc6e00bf33da88fc2, 0xd5a79147930aa725, 0x6ca6351e003826f, 0x142929670a0e6e70,
     0x27b70a8546d22ffc, 0x2e1b21385c26c926, 0x4d2c6dfc5ac42aed, 0x53380d139d95b3df,
     0x650a73548baf63de, 0x766a0abb3c77b2a8, 0x81c2c92e47edaee6, 0x92722c851482353b,
     0xa2bfe8a14cf10364, 0xa81a664bbc423001, 0xc24b8b70d0f89791, 0xc76c51a30654be30,
     0xd192e819d6ef5218, 0xd69906245565a910, 0xf40e35855771202a, 0x106aa07032bbd1b8,
     0x19a4c116b8d2d0c8, 0x1e376c085141ab53, 0x2748774cdf8eeb99, 0x34b0bcb5e19b48a8,
     0x391c0cb3c5c95a63, 0x4ed8aa4ae3418acb, 0x5b9cca4f7763e373, 0x682e6ff3d6b2b8a3,
     0x748f82ee5defb2fc, 0x78a5636f43172f60, 0x84c87814a1f0ab72, 0x8cc702081a6439ec,
     0x90befffa23631e28, 0xa4506cebde82bde9, 0xbef9a3f7b2c67915, 0xc67178f2e372532b,
     0xca273eceea26619c, 0xd186b8c721c0c207, 0xeada7dd6cde0eb1e, 0xf57d4f7fee6ed178,
     0x6f067aa72176fba, 0xa637dc5a2c898a6, 0x113f9804bef90dae, 0x1b710b35131c471b,
     0x28db77f523047d84, 0x32caab7b40c72493, 0x3c9ebe0a15c9bebc, 0x431d67c49c100d4c,
     0x4cc5d4becb3e42b6, 0x597f299cfc657e2a, 0x5fcb6fab3ad6faec, 0x6c44198c4a475817]
  initial := ⟨0xcbbb9d5dc1059ed8, 0x629a292a367cd507, 0x9159015a3070dd17, 0x152fecd8f70e5939,
    0x67332667ffc00b31, 0x8eb44a8768581511, 0xdb0c2e0d64f98fa7, 0x47b5481dbefa4fa4⟩

/-- The digest of 32 bytes. -/
def sha256 (message : Bytes) : FixedBytes 32 :=
  let state := variant256.finalState message
  ⟨bigEndian 4 state.a ++ bigEndian 4 state.b ++ bigEndian 4 state.c ++ bigEndian 4 state.d ++
    bigEndian 4 state.e ++ bigEndian 4 state.f ++ bigEndian 4 state.g ++ bigEndian 4 state.h,
    by simp⟩

/-- The digest of 48 bytes, which drops the last two registers. -/
def sha384 (message : Bytes) : FixedBytes 48 :=
  let state := variant384.finalState message
  ⟨bigEndian 8 state.a ++ bigEndian 8 state.b ++ bigEndian 8 state.c ++ bigEndian 8 state.d ++
    bigEndian 8 state.e ++ bigEndian 8 state.f, by simp⟩

example : (sha256 [97, 98, 99]).val.take 4 = [186, 120, 22, 191] := by decide +kernel

example : (sha384 [97, 98, 99]).val.take 4 = [203, 0, 117, 63] := by decide +kernel

end Sha2
