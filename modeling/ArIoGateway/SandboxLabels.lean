import ArIoGateway.Foundation.Regrouping
import ArIoGateway.Objects
import Mathlib.Data.List.DropRight

/-!
# Labels of sandboxes

Every data item has a host of its own below a root host of the gateway.  Its label is the item's id
in base 32, and a request for such a host is a request for the id.
-/

namespace ArIoGateway

open Octets

def sandboxAlphabet : Bytes := utf8 "abcdefghijklmnopqrstuvwxyz234567"

/-- The symbols that go out of a buffer, each of its five highest bits, and the bits that stay. -/
def sandboxSymbols (buffer : Nat) : (bits : Nat) → List Nat × Nat
  | bits + 5 =>
      let (symbols, left) := sandboxSymbols buffer bits
      ((buffer >>> bits &&& 31) :: symbols, left)
  | bits => ([], bits)

/-- One byte comes into the buffer of 16 bits. -/
def sandboxByte (state : List Nat × Nat × Nat) (byte : UInt8) : List Nat × Nat × Nat :=
  let (encoded, buffer, bits) := state
  let buffer := buffer <<< 8 % 2 ^ 16 ||| byte.toNat
  let (symbols, bits) := sandboxSymbols buffer (bits + 8)
  (encoded ++ symbols, buffer &&& 1 <<< bits - 1, bits)

/-- `sandbox_name`. -/
def sandboxName (id : FixedBytes 32) : Bytes :=
  let (encoded, buffer, bits) := id.val.foldl sandboxByte ([], 0, 0)
  let encoded :=
    if 0 < bits then encoded ++ [buffer <<< (5 - bits) % 2 ^ 16 &&& 31] else encoded
  encoded.map fun symbol => sandboxAlphabet.getD symbol 0

/-- The value of a symbol of a label. -/
def sandboxValue (byte : UInt8) : Option Nat :=
  if 97 ≤ byte.toNat ∧ byte.toNat ≤ 122 then some (byte.toNat - 97)
  else if 50 ≤ byte.toNat ∧ byte.toNat ≤ 55 then some (byte.toNat - 50 + 26)
  else none

/-- What is decoded of a label: the id with zeros behind the bytes that are written, their number,
and the buffer with its bits. -/
structure SandboxDecoder where
  id : FixedBytes 32
  written : Nat
  buffer : Nat
  bits : Nat

/-- One symbol comes into the buffer of 16 bits, and a byte goes out of it when there is one. -/
def SandboxDecoder.push (state : SandboxDecoder) (byte : UInt8) : Option SandboxDecoder := do
  let value ← sandboxValue byte
  let buffer := state.buffer <<< 5 % 2 ^ 16 ||| value
  let bits := state.bits + 5
  if 8 ≤ bits then
    let bits := bits - 8
    some {
      id := ⟨state.id.val.set state.written (UInt8.ofNat (buffer >>> bits % 256)),
        by rw [List.length_set, state.id.property]⟩
      written := state.written + 1
      buffer := buffer &&& 1 <<< bits - 1
      bits }
  else some { state with buffer, bits }

/-- The id of a label: all its symbols are known, and the bits behind the id are zero. -/
def decodeSandboxLabel (label : Bytes) : Option (FixedBytes 32) := do
  let state ← label.foldlM SandboxDecoder.push ⟨⟨List.replicate 32 0, length_zeros⟩, 0, 0, 0⟩
  if state.buffer = 0 then some state.id else none

open Regrouping

theorem or_shift {buffer bits digit width : Nat} (bound : buffer < 2 ^ bits)
    (digitBound : digit < 2 ^ width) (room : bits + width ≤ 16) :
    buffer <<< width % 2 ^ 16 ||| digit = buffer * 2 ^ width + digit := by
  have fits : buffer <<< width < 2 ^ 16 := by
    rw [Nat.shiftLeft_eq]
    calc buffer * 2 ^ width
        < 2 ^ bits * 2 ^ width := Nat.mul_lt_mul_of_pos_right bound (Nat.two_pow_pos _)
      _ = 2 ^ (bits + width) := (pow_add _ _ _).symm
      _ ≤ 2 ^ 16 := Nat.pow_le_pow_right (by decide) room
  rw [Nat.mod_eq_of_lt fits, ← Nat.shiftLeft_add_eq_or_of_lt digitBound, Nat.shiftLeft_eq]

theorem and_mask (buffer bits : Nat) : buffer &&& 1 <<< bits - 1 = buffer % 2 ^ bits := by
  rw [Nat.one_shiftLeft, Nat.and_two_pow_sub_one_eq_mod]

/-- The symbols of a buffer go out, and fewer bits than a symbol has stay. -/
theorem symbols_holds {input output : List Nat} {buffer bits : Nat}
    (holds : Holds 8 5 input output (buffer % 2 ^ bits) bits) :
    Holds 8 5 input (output ++ (sandboxSymbols buffer bits).1)
      (buffer % 2 ^ (sandboxSymbols buffer bits).2) (sandboxSymbols buffer bits).2 ∧
    (sandboxSymbols buffer bits).2 < 5 := by
  induction bits using Nat.strong_induction_on generalizing output with
  | h bits induction =>
      match bits with
      | 0 | 1 | 2 | 3 | 4 =>
          simp only [sandboxSymbols, List.append_nil]
          exact ⟨holds, by decide⟩
      | rest + 5 =>
          have popped := holds.pop_mod
          obtain ⟨later, few⟩ := induction rest (by omega) popped
          have symbol : buffer >>> rest &&& 31 = buffer / 2 ^ rest % 2 ^ 5 := by
            rw [show (31 : Nat) = 2 ^ 5 - 1 from rfl, Nat.and_two_pow_sub_one_eq_mod,
              Nat.shiftRight_eq_div_pow]
          simp only [sandboxSymbols, symbol]
          rw [List.append_cons]
          exact ⟨later, few⟩

/-- Where the encoder stands behind some bytes. -/
def Encoded (input : Bytes) (state : List Nat × Nat × Nat) : Prop :=
  Holds 8 5 (input.map UInt8.toNat) state.1 state.2.1 state.2.2 ∧ state.2.2 < 5

theorem Encoded.byte {input : Bytes} {state : List Nat × Nat × Nat} (encoded : Encoded input state)
    (byte : UInt8) : Encoded (input ++ [byte]) (sandboxByte state byte) := by
  obtain ⟨symbols, buffer, bits⟩ := state
  obtain ⟨holds, few⟩ := encoded
  have pushed := holds.push byte.toNat_lt
  have bound := pushed.buffer
  simp only at few
  simp only [Encoded, sandboxByte, and_mask, List.map_append, List.map_cons, List.map_nil,
    or_shift holds.buffer byte.toNat_lt (show bits + 8 ≤ 16 by omega)]
  apply symbols_holds
  rwa [Nat.mod_eq_of_lt bound]

theorem encoded_foldl (bytes : Bytes) : Encoded bytes (bytes.foldl sandboxByte ([], 0, 0)) := by
  induction bytes using List.reverseRecOn with
  | nil => exact ⟨Holds.start 8 5, by decide⟩
  | append_singleton bytes byte induction =>
      rw [List.foldl_append]
      exact induction.byte byte

/-- The text of symbols. -/
abbrev symbolText (symbols : List Nat) : Bytes :=
  symbols.map fun symbol => sandboxAlphabet.getD symbol 0

/-- A label has 52 symbols, which spell the id with four zeros behind it. -/
theorem sandboxName_spec (id : FixedBytes 32) :
    ∃ symbols, sandboxName id = symbolText symbols ∧ symbols.length = 52 ∧
      (∀ symbol ∈ symbols, symbol < 32) ∧
      spelled 5 symbols = spelled 8 (id.val.map UInt8.toNat) * 2 ^ 4 := by
  obtain ⟨holds, few⟩ := encoded_foldl id.val
  generalize state : id.val.foldl sandboxByte ([], 0, 0) = reached at holds few
  obtain ⟨symbols, buffer, bits⟩ := reached
  dsimp only at holds few
  have count := holds.count
  have width := id.property
  rw [List.length_map, width] at count
  obtain rfl : bits = 1 := by omega
  have bound := holds.buffer
  obtain ⟨value, last⟩ := holds.flush (by decide)
  have masked : buffer <<< (5 - 1) % 2 ^ 16 &&& 31 = buffer * 2 ^ (5 - 1) := by
    rw [show (31 : Nat) = 2 ^ 5 - 1 from rfl, Nat.and_two_pow_sub_one_eq_mod, Nat.shiftLeft_eq]
    omega
  refine ⟨symbols ++ [buffer * 2 ^ (5 - 1)], ?_, ?_, ?_, value⟩
  · rw [sandboxName, state]
    simp only [Nat.zero_lt_one, if_pos, masked]
  · rw [List.length_append, List.length_singleton]
    omega
  · intro symbol member
    rcases List.mem_append.mp member with old | new
    · exact holds.small symbol old
    · rw [List.mem_singleton.mp new]
      exact last

/-- The symbols of the alphabet have their places as values, and no other byte has one. -/
theorem sandboxValue_eq_some {byte : UInt8} {symbol : Nat} :
    sandboxValue byte = some symbol ↔ symbol < 32 ∧ sandboxAlphabet.getD symbol 0 = byte := by
  have all : ((List.range 256).all fun code => (List.range 32).all fun symbol =>
      decide (sandboxValue (UInt8.ofNat code) = some symbol) ==
        decide (sandboxAlphabet.getD symbol 0 = UInt8.ofNat code)) = true := by
    decide +kernel
  have small : sandboxValue byte = some symbol → symbol < 32 := by
    unfold sandboxValue
    split
    · next letter =>
        rintro ⟨⟩
        omega
    · split
      · next digit =>
          rintro ⟨⟩
          omega
      · nofun
  by_cases inside : symbol < 32
  · have row := List.all_eq_true.mp all byte.toNat (List.mem_range.mpr byte.toNat_lt)
    have pair := beq_iff_eq.mp (List.all_eq_true.mp row symbol (List.mem_range.mpr inside))
    rw [UInt8.ofNat_toNat, decide_eq_decide] at pair
    rw [pair, and_iff_right inside]
  · exact iff_of_false (fun found => inside (small found)) fun both => inside both.1

/-- Where the decoder stands behind some symbols. -/
structure Decoded (input : List Nat) (state : SandboxDecoder) (front : Bytes) : Prop where
  holds : Holds 5 8 input (front.map UInt8.toNat) state.buffer state.bits
  few : state.bits < 8
  written : state.written = front.length
  id : state.id.val = front ++ List.replicate (32 - front.length) 0

theorem Decoded.push {input : List Nat} {state : SandboxDecoder} {front : Bytes}
    (decoded : Decoded input state front) {byte : UInt8} {symbol : Nat}
    (value : sandboxValue byte = some symbol) (room : input.length < 52) :
    ∃ after front', state.push byte = some after ∧ Decoded (input ++ [symbol]) after front' := by
  obtain ⟨holds, few, written, id⟩ := decoded
  have small : symbol < 2 ^ 5 := (sandboxValue_eq_some.mp value).1
  have pushed := holds.push small
  have came := or_shift holds.buffer small (show state.bits + 5 ≤ 16 by omega)
  have count := pushed.count
  rw [List.length_append, List.length_singleton, List.length_map] at count
  by_cases full : 8 ≤ state.bits + 5
  · obtain ⟨bits, enough⟩ : ∃ bits, state.bits + 5 = bits + 8 := ⟨state.bits + 5 - 8, by omega⟩
    have bound := pushed.buffer
    rw [← Nat.mod_eq_of_lt bound, enough] at pushed
    have popped := pushed.pop_mod
    have code : (UInt8.ofNat ((state.buffer * 2 ^ 5 + symbol) / 2 ^ bits % 256)).toNat =
        (state.buffer * 2 ^ 5 + symbol) / 2 ^ bits % 2 ^ 8 :=
      UInt8.toNat_ofNat'.trans (Nat.mod_mod _ _)
    generalize moved : UInt8.ofNat ((state.buffer * 2 ^ 5 + symbol) / 2 ^ bits % 256) = out at code
    refine ⟨⟨⟨state.id.val.set state.written out, by rw [List.length_set, state.id.property]⟩,
      state.written + 1, (state.buffer * 2 ^ 5 + symbol) % 2 ^ bits, bits⟩, front ++ [out], ?_, ?_⟩
    · rw [SandboxDecoder.push, value, Option.bind_eq_bind, Option.bind_some]
      simp only [came, enough, if_pos (Nat.le_add_left 8 bits), Nat.add_sub_cancel, and_mask,
        Nat.shiftRight_eq_div_pow, moved]
    · constructor
      · rw [List.map_append, List.map_cons, List.map_nil, code]
        exact popped
      · simp only
        omega
      · rw [List.length_append, List.length_singleton, ← written]
      · obtain ⟨left, rest⟩ : ∃ left, 32 - front.length = left + 1 := ⟨31 - front.length, by omega⟩
        simp only [id, written, rest, List.replicate_succ, List.length_append, List.length_singleton]
        rw [List.set_append_right _ _ le_rfl, Nat.sub_self, List.set_cons_zero, List.append_assoc,
          show 32 - (front.length + 1) = left by omega]
        rfl
  · refine ⟨⟨state.id, state.written, state.buffer * 2 ^ 5 + symbol, state.bits + 5⟩, front, ?_, ?_⟩
    · rw [SandboxDecoder.push, value, Option.bind_eq_bind, Option.bind_some]
      simp only [came, if_neg full]
    · exact ⟨pushed, by simp only; omega, written, id⟩

/-- The decoder goes through symbols of the alphabet. -/
theorem decoded_foldlM {input symbols : List Nat} {front : Bytes} {state : SandboxDecoder}
    (decoded : Decoded input state front) (known : ∀ symbol ∈ symbols, symbol < 32)
    (room : input.length + symbols.length ≤ 52) :
    ∃ after front', (symbolText symbols).foldlM SandboxDecoder.push state = some after ∧
      Decoded (input ++ symbols) after front' := by
  induction symbols generalizing input front state with
  | nil => exact ⟨state, front, rfl, by rwa [List.append_nil]⟩
  | cons symbol symbols induction =>
      rw [List.length_cons] at room
      have value := sandboxValue_eq_some.mpr ⟨known symbol List.mem_cons_self, rfl⟩
      obtain ⟨middle, front', stepped, decoded⟩ := decoded.push value (by omega)
      obtain ⟨after, last, folded, final⟩ := induction decoded
        (fun other member => known other (List.mem_cons_of_mem _ member)) (by
          rw [List.length_append, List.length_singleton]
          omega)
      refine ⟨after, last, ?_, by rwa [List.append_cons]⟩
      rw [symbolText, List.map_cons, List.foldlM_cons, stepped]
      exact folded

/-- The decoder goes through nothing else. -/
theorem exists_symbols {label : Bytes} {state after : SandboxDecoder}
    (folded : label.foldlM SandboxDecoder.push state = some after) :
    ∃ symbols, label = symbolText symbols ∧ ∀ symbol ∈ symbols, symbol < 32 := by
  induction label generalizing state with
  | nil => exact ⟨[], rfl, by simp⟩
  | cons byte label induction =>
      rw [List.foldlM_cons] at folded
      obtain ⟨middle, stepped, rest⟩ := Option.bind_eq_some_iff.mp folded
      obtain ⟨symbol, value, -⟩ := Option.bind_eq_some_iff.mp stepped
      obtain ⟨small, same⟩ := sandboxValue_eq_some.mp value
      obtain ⟨symbols, rfl, known⟩ := induction rest
      exact ⟨symbol :: symbols, by rw [symbolText, symbolText, List.map_cons, same],
        List.forall_mem_cons.mpr ⟨small, known⟩⟩

/-- An id is decoded from the symbols that spell it with four zeros behind it. -/
theorem decodeSandboxLabel_symbols {symbols : List Nat} {id : FixedBytes 32}
    (long : symbols.length = 52) (known : ∀ symbol ∈ symbols, symbol < 32) :
    decodeSandboxLabel (symbolText symbols) = some id ↔
      spelled 5 symbols = spelled 8 (id.val.map UInt8.toNat) * 2 ^ 4 := by
  have begun : Decoded [] ⟨⟨List.replicate 32 0, rfl⟩, 0, 0, 0⟩ [] :=
    ⟨Holds.start 5 8, by decide, rfl, rfl⟩
  obtain ⟨after, front, folded, holds, few, written, whole⟩ :=
    decoded_foldlM begun known (by rw [long]; decide)
  have decoded : decodeSandboxLabel (symbolText symbols) =
      if after.buffer = 0 then some after.id else none := by
    rw [decodeSandboxLabel, folded]
    rfl
  have count := holds.count
  rw [List.nil_append, long, List.length_map] at count
  have bits : after.bits = 4 := by omega
  have full : front.length = 32 := by omega
  rw [full, Nat.sub_self, List.replicate_zero, List.append_nil] at whole
  have value := holds.value
  have bound := holds.buffer
  rw [List.nil_append, bits, ← whole] at value
  rw [bits] at bound
  rw [decoded, value]
  constructor
  · intro same
    obtain ⟨zero, rfl⟩ := Option.ite_none_right_eq_some.mp same |>.imp_right Option.some.inj
    rw [zero, Nat.add_zero]
  · intro same
    have zero : after.buffer = 0 := by omega
    have numbers : spelled 8 (after.id.val.map UInt8.toNat) = spelled 8 (id.val.map UInt8.toNat) := by
      omega
    rw [if_pos zero]
    have digits := spelled_inj (by decide)
      (by rw [List.length_map, List.length_map, after.id.property, id.property])
      (fun digit member => by
        obtain ⟨byte, -, rfl⟩ := List.mem_map.mp member
        exact byte.toNat_lt)
      (fun digit member => by
        obtain ⟨byte, -, rfl⟩ := List.mem_map.mp member
        exact byte.toNat_lt) numbers
    have bytes := List.map_injective_iff.mpr (fun _ _ => UInt8.toNat_inj.mp) digits
    exact congrArg some (Subtype.ext bytes)

/-- The label of an id is decoded to the id, and no other label of its length is. -/
theorem decodeSandboxLabel_iff {label : Bytes} {id : FixedBytes 32} (long : label.length = 52) :
    decodeSandboxLabel label = some id ↔ label = sandboxName id := by
  obtain ⟨symbols, named, size, known, value⟩ := sandboxName_spec id
  constructor
  · intro decoded
    obtain ⟨after, folded, -⟩ := Option.bind_eq_some_iff.mp decoded
    obtain ⟨others, rfl, othersKnown⟩ := exists_symbols folded
    rw [symbolText, List.length_map] at long
    have otherValue := (decodeSandboxLabel_symbols long othersKnown).mp decoded
    rw [named, spelled_inj (by decide) (long.trans size.symm) othersKnown known
      (otherValue.trans value.symm)]
  · rintro rfl
    rw [named]
    exact (decodeSandboxLabel_symbols size known).mpr value

/-- `validate_host`: labels of lower-case letters, digits and inner hyphens between dots. -/
def validHost (host : Bytes) : Bool :=
  host ≠ [] ∧ host.length ≤ 253 ∧ (host.splitOn 46).all (fun label =>
    label ≠ [] ∧ label.length ≤ 63 ∧ label.all (fun byte =>
      (97 ≤ byte.toNat ∧ byte.toNat ≤ 122) ∨ isAsciiDigit byte ∨ byte = 45) = true ∧
    label.head? ≠ some 45 ∧ label.getLast? ≠ some 45) = true

/-- A root host of the configuration. -/
abbrev RootHost := { host : Bytes // validHost host = true }

/-- `strip_suffix`. -/
def stripEnd (suffix text : Bytes) : Option Bytes :=
  if suffix.isSuffixOf text = true then some (text.take (text.length - suffix.length)) else none

/-- `max_by_key` with the length of the host; of several longest ones the last one. -/
def longestHost (roots : List RootHost) : Option RootHost :=
  roots.foldl (fun best root =>
    match best with
    | none => some root
    | some other => if other.val.length ≤ root.val.length then some root else some other) none

/-- `root_host`: the longest root host that a host is or is below of. -/
def rootHost (roots : List RootHost) (host : Bytes) : Option RootHost :=
  longestHost (roots.filter fun root =>
    (stripEnd root.val host).any fun front => front = [] ∨ front.getLast? = some 46)

section Requests

variable (authority : Bytes → Option Bytes) (roots : List RootHost)

/-- `request_host`.  The host of an authority is found by a library. -/
def requestHost (header : Option Bytes) : Option Bytes := do
  let value ← header
  if value.all (fun byte => 32 ≤ byte.toNat ∧ byte.toNat < 127 ∨ byte = 9) = true then
    let host ← authority value
    some ((host.rdropWhile (· = 46)).map asciiLower)
  else none

/-- The first label of a host below its root host. -/
def sandboxLabel (header : Option Bytes) : Option Bytes := do
  let host ← requestHost authority header
  let root ← rootHost roots host
  let front ← stripEnd root.val host
  let front ← stripEnd [46] front
  some (front.takeWhile (· ≠ 46))

/-- `request_sandbox_id`. -/
def requestSandboxId (header : Option Bytes) : Option (FixedBytes 32) := do
  let label ← sandboxLabel authority roots header
  if label.length ≠ 52 then none
  else decodeSandboxLabel label

end Requests

theorem stripEnd_eq_some {suffix text front : Bytes} :
    stripEnd suffix text = some front ↔ text = front ++ suffix := by
  unfold stripEnd
  constructor
  · intro stripped
    obtain ⟨ends, same⟩ := Option.ite_none_right_eq_some.mp stripped
    obtain ⟨before, rfl⟩ := List.isSuffixOf_iff_suffix.mp ends
    obtain rfl := Option.some.inj same
    rw [List.length_append, Nat.add_sub_cancel, List.take_left']
    rfl
  · rintro rfl
    rw [if_pos (List.isSuffixOf_iff_suffix.mpr (List.suffix_append front suffix)),
      List.length_append, Nat.add_sub_cancel, List.take_left']
    rfl

/-- The longest of some hosts is one of them, and no other one is longer. -/
theorem longestHost_spec {roots : List RootHost} {root : RootHost} (member : root ∈ roots) :
    ∃ best, longestHost roots = some best ∧ best ∈ roots ∧
      ∀ other ∈ roots, other.val.length ≤ best.val.length := by
  induction roots using List.reverseRecOn generalizing root with
  | nil => cases member
  | append_singleton roots last induction =>
      rw [longestHost, List.foldl_append]
      cases roots with
      | nil => exact ⟨last, rfl, by simp, by simp⟩
      | cons first rest =>
          obtain ⟨best, found, inside, longest⟩ := induction List.mem_cons_self
          rw [longestHost] at found
          rw [found]
          by_cases longer : best.val.length ≤ last.val.length
          · refine ⟨last, if_pos longer, by simp, fun other member => ?_⟩
            rcases List.mem_append.mp member with old | new
            · exact (longest other old).trans longer
            · rw [List.mem_singleton.mp new]
          · refine ⟨best, if_neg longer, List.mem_append_left _ inside, fun other member => ?_⟩
            rcases List.mem_append.mp member with old | new
            · exact longest other old
            · rw [List.mem_singleton.mp new]
              omega

/-- The bytes of hosts in lower case. -/
def hostByte (byte : UInt8) : Bool :=
  (97 ≤ byte.toNat ∧ byte.toNat ≤ 122) ∨ isAsciiDigit byte ∨ byte = 45 ∨ byte = 46

/-- A text that is a host and nothing else. -/
structure PlainHost (host : Bytes) : Prop where
  full : host ≠ []
  short : host.length < 65535
  bytes : ∀ byte ∈ host, hostByte byte = true
  last : host.getLast? ≠ some 46

theorem asciiLower_of_hostByte {byte : UInt8} (plain : hostByte byte = true) :
    asciiLower byte = byte := by
  simp only [hostByte, isAsciiDigit, decide_eq_true_eq] at plain
  apply if_neg
  rintro ⟨low, high⟩
  rcases plain with letter | digit | rfl | rfl
  · omega
  · omega
  · exact absurd low (by decide)
  · exact absurd low (by decide)

theorem visible_of_hostByte {byte : UInt8} (plain : hostByte byte = true) :
    32 ≤ byte.toNat ∧ byte.toNat < 127 := by
  simp only [hostByte, isAsciiDigit, decide_eq_true_eq] at plain
  rcases plain with letter | digit | rfl | rfl
  · omega
  · omega
  · decide
  · decide

/-- Labels that are not empty make up a plain text between dots. -/
theorem plain_intercalate {labels : List Bytes} (any : labels ≠ [])
    (nonempty : ∀ label ∈ labels, label ≠ [])
    (bytes : ∀ label ∈ labels, ∀ byte ∈ label, hostByte byte = true ∧ byte ≠ 46) :
    ([46].intercalate labels) ≠ [] ∧ (∀ byte ∈ [46].intercalate labels, hostByte byte = true) ∧
      ([46].intercalate labels).getLast? ≠ some 46 := by
  induction labels with
  | nil => exact absurd rfl any
  | cons label labels induction =>
      have first := bytes label List.mem_cons_self
      have full := nonempty label List.mem_cons_self
      cases labels with
      | nil =>
          rw [List.intercalate_singleton]
          refine ⟨full, fun byte member => (first byte member).1, fun last => ?_⟩
          exact (first 46 (List.mem_of_getLast? last)).2 rfl
      | cons other labels =>
          obtain ⟨rest, inner, last⟩ := induction (List.cons_ne_nil _ _)
            (fun part member => nonempty part (List.mem_cons_of_mem _ member))
            (fun part member => bytes part (List.mem_cons_of_mem _ member))
          rw [List.intercalate_cons_cons]
          refine ⟨by simp [full], fun byte member => ?_, ?_⟩
          · rw [List.mem_append, List.mem_append, List.mem_singleton] at member
            rcases member with (here | rfl) | behind
            · exact (first byte here).1
            · decide
            · exact inner byte behind
          · rwa [List.getLast?_append_of_ne_nil _ rest]

theorem RootHost.plain (root : RootHost) : PlainHost root.val := by
  obtain ⟨host, valid⟩ := root
  simp only [validHost, decide_eq_true_eq] at valid
  obtain ⟨full, short, labels⟩ := valid
  have each (label : Bytes) (member : label ∈ host.splitOn 46) :
      label ≠ [] ∧ ∀ byte ∈ label, hostByte byte = true ∧ byte ≠ 46 := by
    have holds := of_decide_eq_true (List.all_eq_true.mp labels label member)
    obtain ⟨nonempty, -, bytes, -⟩ := holds
    refine ⟨nonempty, fun byte inside => ?_⟩
    have plain := of_decide_eq_true (List.all_eq_true.mp bytes byte inside)
    constructor
    · simp only [hostByte, decide_eq_true_eq]
      tauto
    · rintro rfl
      exact absurd plain (by decide)
  obtain ⟨-, bytes, last⟩ := plain_intercalate (List.splitOn_ne_nil 46 host)
    (fun label member => (each label member).1) (fun label member => (each label member).2)
  rw [List.intercalate_splitOn] at bytes last
  exact ⟨full, by simp only; omega, bytes, last⟩

/-- The host of a label below a root host. -/
def hostBelow (label : Bytes) (root : RootHost) : Bytes := label ++ 46 :: root.val

section Below

variable {authority : Bytes → Option Bytes} {roots : List RootHost} {label : Bytes}
  {root : RootHost}

theorem requestHost_of_plain (library : ∀ host, PlainHost host → authority host = some host)
    {host : Bytes} (plain : PlainHost host) : requestHost authority (some host) = some host := by
  have visible : host.all (fun byte => 32 ≤ byte.toNat ∧ byte.toNat < 127 ∨ byte = 9) = true := by
    apply List.all_eq_true.mpr
    intro byte member
    exact decide_eq_true (.inl (visible_of_hostByte (plain.bytes byte member)))
  have kept : host.rdropWhile (· = 46) = host := by
    apply List.rdropWhile_eq_self_iff.mpr
    intro full last
    apply plain.last
    rw [List.getLast?_eq_getLast_of_ne_nil full]
    simpa using last
  have lower : host.map asciiLower = host := by
    apply (List.map_congr_left fun byte member => ?_).trans (List.map_id host)
    exact asciiLower_of_hostByte (plain.bytes byte member)
  rw [requestHost, Option.bind_eq_bind, Option.bind_some, if_pos visible, library host plain]
  exact congrArg some (by rw [kept, lower])

/-- A root host is among those that a host below it is in. -/
theorem mem_rootsOf (member : root ∈ roots) (label : Bytes) :
    root ∈ roots.filter fun other => (stripEnd other.val (hostBelow label root)).any fun front =>
      front = [] ∨ front.getLast? = some 46 := by
  apply List.mem_filter.mpr
  refine ⟨member, ?_⟩
  rw [stripEnd_eq_some.mpr (by rw [hostBelow, List.append_cons])]
  simp

/-- Below a root host stands a host that is in no longer root host but itself. -/
theorem rootHost_below (member : root ∈ roots) (single : 46 ∉ label)
    (outside : ∀ other ∈ roots, other.val ≠ hostBelow label root) :
    rootHost roots (hostBelow label root) = some root := by
  have spelled : hostBelow label root = (label ++ [46]) ++ root.val := by
    rw [hostBelow, List.append_cons]
  have within := mem_rootsOf member label
  obtain ⟨best, found, inside, longest⟩ := longestHost_spec within
  rw [rootHost, found]
  obtain ⟨bestMember, fits⟩ := List.mem_filter.mp inside
  obtain ⟨front, stripped, ends⟩ := (Option.any_eq_true _ _).mp fits
  have same := stripEnd_eq_some.mp stripped
  rcases of_decide_eq_true ends with rfl | dot
  · exact absurd same.symm (outside best bestMember)
  · have widths := longest root within
    obtain ⟨before, rfl⟩ := List.getLast?_eq_some_iff.mp dot
    -- What stands in front of the root host that is found ends with the only dot there is.
    have fronts : before ++ [46] <+: label ++ [46] := by
      apply List.prefix_of_prefix_length_le (List.prefix_append _ best.val)
      · rw [← same, spelled]
        exact List.prefix_append _ _
      · have total := congrArg List.length same
        rw [spelled, List.length_append] at total
        have parts := @List.length_append _ (before ++ [46]) best.val
        omega
    have whole : before ++ [46] = label ++ [46] := by
      rcases List.prefix_concat_iff.mp fronts with equal | shorter
      · exact equal
      · exact absurd (shorter.subset (by simp)) single
    rw [spelled, whole] at same
    exact congrArg some (Subtype.ext (List.append_cancel_left same).symm)

theorem rootHost_ne_none (member : root ∈ roots) (label : Bytes) :
    rootHost roots (hostBelow label root) ≠ none := by
  obtain ⟨best, found, -⟩ := longestHost_spec (mem_rootsOf member label)
  rw [rootHost, found]
  exact Option.some_ne_none best

/-- A label is what stands in front of the first dot of a host below its root host. -/
theorem sandboxLabel_eq_some {header : Option Bytes} :
    sandboxLabel authority roots header = some label ↔
      ∃ host root front, requestHost authority header = some host ∧
        rootHost roots host = some root ∧ host = hostBelow front root ∧
          front.takeWhile (· ≠ 46) = label := by
  simp only [sandboxLabel, Option.bind_eq_bind, Option.bind_eq_some_iff, stripEnd_eq_some,
    Option.some.injEq, hostBelow]
  constructor
  · rintro ⟨host, requested, root, found, _, spelled, front, rfl, named⟩
    exact ⟨host, root, front, requested, found, by simpa using spelled, named⟩
  · rintro ⟨host, root, front, requested, found, spelled, named⟩
    exact ⟨host, requested, root, found, front ++ [46], by simpa using spelled, front, rfl, named⟩

theorem takeWhile_of_single (single : 46 ∉ label) : label.takeWhile (· ≠ 46) = label := by
  apply List.takeWhile_eq_self_iff.mpr
  intro byte inside
  apply decide_eq_true
  rintro rfl
  exact single inside

theorem sandboxLabel_below (library : ∀ host, PlainHost host → authority host = some host)
    (member : root ∈ roots) (plain : PlainHost (hostBelow label root)) (single : 46 ∉ label)
    (outside : ∀ other ∈ roots, other.val ≠ hostBelow label root) :
    sandboxLabel authority roots (some (hostBelow label root)) = some label :=
  sandboxLabel_eq_some.mpr ⟨hostBelow label root, root, label, requestHost_of_plain library plain,
    rootHost_below member single outside, rfl, takeWhile_of_single single⟩

end Below

theorem sandboxName_length (id : FixedBytes 32) : (sandboxName id).length = 52 := by
  obtain ⟨symbols, named, size, -⟩ := sandboxName_spec id
  rw [named, symbolText, List.length_map, size]

/-- A label has letters and digits only. -/
theorem sandboxName_bytes (id : FixedBytes 32) {byte : UInt8} (member : byte ∈ sandboxName id) :
    hostByte byte = true ∧ byte ≠ 46 := by
  obtain ⟨symbols, named, -, known, -⟩ := sandboxName_spec id
  rw [named] at member
  obtain ⟨symbol, inside, rfl⟩ := List.mem_map.mp member
  have all : ((List.range 32).all fun symbol =>
      hostByte (sandboxAlphabet.getD symbol 0) && sandboxAlphabet.getD symbol 0 != 46) = true := by
    decide
  have here := List.all_eq_true.mp all symbol (List.mem_range.mpr (known symbol inside))
  rw [Bool.and_eq_true, bne_iff_ne] at here
  exact here

theorem sandboxName_below (id : FixedBytes 32) (root : RootHost) :
    PlainHost (hostBelow (sandboxName id) root) := by
  have plain := root.plain
  have short := root.property
  simp only [validHost, decide_eq_true_eq] at short
  constructor
  · simp [hostBelow]
  · rw [hostBelow, List.length_append, List.length_cons, sandboxName_length]
    omega
  · intro byte member
    rcases List.mem_append.mp member with named | below
    · exact (sandboxName_bytes id named).1
    · rcases List.mem_cons.mp below with rfl | inside
      · decide
      · exact plain.bytes byte inside
  · rw [hostBelow, List.append_cons, List.getLast?_append_of_ne_nil _ plain.full]
    exact plain.last

/-- What is accepted is the label of its id. -/
theorem requestSandboxId_eq_some {authority : Bytes → Option Bytes} {roots : List RootHost}
    {header : Option Bytes} {id : FixedBytes 32} :
    requestSandboxId authority roots header = some id ↔
      sandboxLabel authority roots header = some (sandboxName id) := by
  constructor
  · intro accepted
    obtain ⟨label, found, decoded⟩ := Option.bind_eq_some_iff.mp accepted
    obtain ⟨long, decoded⟩ := Option.ite_none_left_eq_some.mp decoded
    rw [found, (decodeSandboxLabel_iff (not_not.mp long)).mp decoded]
  · intro found
    have long := sandboxName_length id
    rw [requestSandboxId, found, Option.bind_eq_bind, Option.bind_some, if_neg (not_not.mpr long)]
    exact (decodeSandboxLabel_iff long).mpr rfl

end ArIoGateway
