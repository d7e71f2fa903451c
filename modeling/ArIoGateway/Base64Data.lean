import ArIoGateway.JsonBundles

/-!
# Data in base64url

The data of a JSON item is text in base64url in the body of a JSON string, possibly with escapes.  It
is decoded in blocks, once to the end to find its length and digests, with checkpoints on the way,
and later from the nearest checkpoint on.
-/

namespace ArIoGateway

open Octets

/-- The bytes that a buffered reader has left, in the parts in which it gets them. -/
abbrev Parts := List Bytes

/-- `fill_buf`: the parts from the next one on that is not empty. -/
def fillBuf : Parts → Parts
  | [] => []
  | [] :: parts => fillBuf parts
  | part :: parts => part :: parts

/-- `read_u8`. -/
def readU8 (parts : Parts) : Except ScanError (UInt8 × Parts) :=
  match fillBuf parts with
  | (byte :: part) :: parts => .ok (byte, part :: parts)
  | _ => .error .unexpectedEnd

/-- `read_exact`, with a number of bytes. -/
def readExact : Nat → Parts → Except ScanError (Bytes × Parts)
  | 0, parts => .ok ([], parts)
  | count + 1, parts => do
      let (byte, parts) ← readU8 parts
      let (bytes, parts) ← readExact count parts
      pure (byte :: bytes, parts)

/-- Four hexadecimal digits that spell a byte. -/
def hexByte (digits : Bytes) : Except ScanError UInt8 :=
  match digits.mapM decodeHexNibble with
  | some digits =>
      let value := digits.foldl (fun value digit => value * 16 + digit) 0
      if value < 256 then .ok (UInt8.ofNat value) else .error .invalid
  | none => .error .invalid

/-- The byte that a short escape stands for. -/
def shortEscape (escaped : UInt8) : Except ScanError UInt8 :=
  if escaped = 34 ∨ escaped = 92 ∨ escaped = 47 then .ok escaped
  else if escaped = 98 then .ok 8
  else if escaped = 102 then .ok 12
  else if escaped = 110 then .ok 10
  else if escaped = 114 then .ok 13
  else if escaped = 116 then .ok 9
  else .error .invalid

/-- The byte that an escape stands for, and the number of bytes behind the backslash. -/
def readEscape (parts : Parts) : Except ScanError (UInt8 × Parts × Nat) := do
  let (escaped, parts) ← readU8 parts
  if escaped = 117 then do
    let (digits, parts) ← readExact 4 parts
    let byte ← hexByte digits
    pure (byte, parts, 5)
  else do
    let byte ← shortEscape escaped
    pure (byte, parts, 1)

/-- `Decoder`. -/
structure Decoder where
  parts : Parts
  rawPosition : Nat

namespace Decoder

/-- The loop of `Decoder::next`: symbols up to the size of a block.  A run without backslashes is
taken as far as it is buffered. -/
def symbols : (rounds : Nat) → (encoded : Bytes) → Decoder → Except ScanError (Bytes × Decoder)
  | 0, encoded, decoder => .ok (encoded, decoder)
  | rounds + 1, encoded, decoder =>
      if encoded.length < decodeBlock then
        match fillBuf decoder.parts with
        | [] => .ok (encoded, { decoder with parts := [] })
        | available :: others =>
            -- `findIdx` is the length when there is no backslash
            let count := min (available.findIdx (· = 92)) (decodeBlock - encoded.length)
            if 0 < count then
              symbols rounds (encoded ++ available.take count)
                ⟨available.drop count :: others, decoder.rawPosition + count⟩
            else do
              let (byte, parts, used) ← readEscape (available.drop 1 :: others)
              symbols rounds (encoded ++ [byte]) ⟨parts, decoder.rawPosition + 1 + used⟩
      else .ok (encoded, decoder)

/-- `Decoder::next`.  Every round takes a byte. -/
def next (decoder : Decoder) : Except ScanError (Option Bytes × Decoder) := do
  let (encoded, decoder) ← decoder.symbols (decoder.parts.flatten.length + 1) []
  if encoded = [] then pure (none, decoder)
  else
    match base64Decode encoded with
    | some bytes => pure (some bytes, decoder)
    | none => .error .invalid

end Decoder

/-- `Base64Data`. -/
structure Base64Data where
  encoded : Bytes
  checkpoints : List (Nat × Nat)
  len : Nat

/-- The variables of the loop of `scan`; the hashers are the bytes that they were given. -/
structure ScanState where
  checkpoints : List (Nat × Nat)
  nextCheckpoint : Nat
  len : Nat
  hashed : List Bytes

/-- `usize::MAX`. -/
def maxUsize : Nat := 2 ^ 64 - 1

/-- The distance between checkpoints. -/
def checkpointStride (length : Nat) : Nat := max ((length + 4095) / 4096) decodeBlock

/-- What `scan` does with a block. -/
def ScanState.take (stride rawPosition : Nat) (bytes : Bytes) (state : ScanState) : ScanState :=
  let len := state.len + bytes.length
  if state.nextCheckpoint ≤ rawPosition then
    { checkpoints := state.checkpoints ++ [(rawPosition, len)]
      nextCheckpoint := min (rawPosition + stride) maxUsize
      len
      hashed := state.hashed ++ [bytes] }
  else { state with len, hashed := state.hashed ++ [bytes] }

/-- The loop of `scan`; one round for every byte is enough. -/
def scanLoop (stride : Nat) : (rounds : Nat) → Decoder → ScanState → Except ScanError ScanState
  | 0, _, _ => .error .unexpectedEnd
  | rounds + 1, decoder, state => do
      match ← decoder.next with
      | (none, _) => pure state
      | (some bytes, decoder) =>
          -- an overflow of the length fails as reading does; it is no invalid item
          if state.len + bytes.length ≤ maxUsize then
            scanLoop stride rounds decoder (state.take stride decoder.rawPosition bytes)
          else .error .unexpectedEnd

section Content

variable (suite : HashSuite) (buffers : Bytes → Parts)

/-- `Base64Data::scan`, with a reader that gets content in parts. -/
def Base64Data.scan (encoded : Bytes) :
    Except ScanError (Base64Data × FixedBytes 32 × FixedBytes 48) := do
  let stride := checkpointStride encoded.length
  let state ← scanLoop stride (encoded.length + 1) ⟨buffers encoded, 0⟩
    { checkpoints := [(0, 0)], nextCheckpoint := stride, len := 0, hashed := [] }
  pure ({ encoded, checkpoints := state.checkpoints, len := state.len },
    suite.sha256 state.hashed, suite.sha384 state.hashed)

/-- The pieces of a stream: bytes are skipped, and a number of bytes is delivered. -/
def streamLoop : (rounds : Nat) → Decoder → (skip remaining : Nat) → Except ScanError (List Bytes)
  | _, _, _, 0 => .ok []
  | 0, _, _, _ + 1 => .error .unexpectedEnd
  | rounds + 1, decoder, skip, remaining + 1 => do
      match ← decoder.next with
      | (none, _) => .error .unexpectedEnd
      | (some bytes, decoder) =>
          if bytes.length ≤ skip then
            streamLoop rounds decoder (skip - bytes.length) (remaining + 1)
          else
            let count := min (bytes.length - skip) (remaining + 1)
            let pieces ← streamLoop rounds decoder 0 (remaining + 1 - count)
            pure ((bytes.drop skip).take count :: pieces)

/-- The checkpoint that a stream starts from: the last one that is not behind the offset. -/
def Base64Data.checkpointFor (data : Base64Data) (offset : Nat) : Nat × Nat :=
  let index := (data.checkpoints.takeWhile fun checkpoint => checkpoint.2 ≤ offset).length - 1
  data.checkpoints.getD index (0, 0)

/-- `Base64Data::stream`. -/
def Base64Data.stream (data : Base64Data) (offset length : Nat) :
    Except ScanError (List Bytes) :=
  let (raw, decoded) := data.checkpointFor offset
  let content := data.encoded.drop raw
  streamLoop (content.length + 1) ⟨buffers content, 0⟩ (offset - decoded) length

end Content

/-- `Content::from_cached_stream` for data in base64. -/
def fromCachedBase64 (encoded : Bytes) (checkpoints : List (Nat × Nat))
    (decodedLen offset length : Nat) : Checked Base64Data := do
  Checked.ensure (checkpoints.head? = some (0, 0) ∧ checkpoints.length ≤ 4097)
    "invalid cached base64 checkpoints"
  Checked.ensure
    ((∀ pair ∈ checkpoints.zip checkpoints.tail, pair.1.1 < pair.2.1 ∧ pair.1.2 < pair.2.2) ∧
      ∀ checkpoint ∈ checkpoints, checkpoint.1 ≤ encoded.length ∧ checkpoint.2 ≤ decodedLen)
    "invalid cached base64 checkpoint range"
  Checked.ensure (offset + length ≤ decodedLen) "cached base64 range exceeds data"
  pure { encoded, checkpoints, len := decodedLen }

theorem base64Decode_bind (first second third fourth : UInt8) (rest : Bytes) :
    base64Decode (first :: second :: third :: fourth :: rest) =
      (base64Value first).bind fun a => (base64Value second).bind fun b =>
        (base64Value third).bind fun c => (base64Value fourth).bind fun d =>
          (base64Decode rest).map fun tail =>
            UInt8.ofNat ((a * 262144 + b * 4096 + c * 64 + d) / 65536) ::
              UInt8.ofNat ((a * 262144 + b * 4096 + c * 64 + d) / 256 % 256) ::
              UInt8.ofNat ((a * 262144 + b * 4096 + c * 64 + d) % 256) :: tail := by
  rw [base64Decode.eq_def]
  simp only
  rw [Option.bind_eq_bind]
  cases base64Value first with
  | none => rw [Option.bind_none, Option.bind_none]
  | some a =>
      rw [Option.bind_some, Option.bind_some]
      cases base64Value second with
      | none => rw [Option.bind_none, Option.bind_none]
      | some b =>
          rw [Option.bind_some, Option.bind_some]
          cases base64Value third with
          | none => rw [Option.bind_none, Option.bind_none]
          | some c =>
              rw [Option.bind_some, Option.bind_some]
              cases base64Value fourth with
              | none => rw [Option.bind_none, Option.bind_none]
              | some d =>
                  rw [Option.bind_some, Option.bind_some]
                  cases base64Decode rest <;> rfl

theorem base64Decode_bind_three (first second third : UInt8) :
    base64Decode [first, second, third] =
      (base64Value first).bind fun a => (base64Value second).bind fun b =>
        (base64Value third).bind fun c =>
          if (a * 262144 + b * 4096 + c * 64) % 256 = 0 then
            some [UInt8.ofNat ((a * 262144 + b * 4096 + c * 64) / 65536),
              UInt8.ofNat ((a * 262144 + b * 4096 + c * 64) / 256 % 256)]
          else none := by
  rw [base64Decode.eq_def]
  simp only
  rw [Option.bind_eq_bind]

theorem base64Decode_bind_two (first second : UInt8) :
    base64Decode [first, second] =
      (base64Value first).bind fun a => (base64Value second).bind fun b =>
        if (a * 262144 + b * 4096) % 65536 = 0 then
          some [UInt8.ofNat ((a * 262144 + b * 4096) / 65536)]
        else none := by
  rw [base64Decode.eq_def]
  simp only
  rw [Option.bind_eq_bind]

/-- Whole groups of four symbols are decoded on their own. -/
theorem base64Decode_append {front : Bytes} (rest : Bytes) (whole : front.length % 4 = 0) :
    base64Decode (front ++ rest) =
      (base64Decode front).bind fun head => (base64Decode rest).map fun tail => head ++ tail := by
  induction front using base64Decode.induct with
  | case1 first second third fourth front induction =>
      have shorter : front.length % 4 = 0 := by
        simp only [List.length_cons] at whole
        omega
      rw [List.cons_append, List.cons_append, List.cons_append, List.cons_append,
        base64Decode_bind, base64Decode_bind, induction shorter]
      cases base64Value first <;> cases base64Value second <;> cases base64Value third <;>
        cases base64Value fourth <;> cases base64Decode front <;> cases base64Decode rest <;> rfl
  | case2 first second third => simp at whole
  | case3 first second => simp at whole
  | case4 first => simp at whole
  | case5 =>
      rw [List.nil_append, show base64Decode [] = some [] from rfl, Option.bind_some]
      simp

theorem base64Symbol_of_value {symbol : UInt8} {value : Nat}
    (valued : base64Value symbol = some value) : base64Symbol value = symbol ∧ value < 64 := by
  have all : ∀ code : Fin 256, (base64Value (UInt8.ofNat code.val)).all fun value =>
      decide (base64Symbol value = UInt8.ofNat code.val ∧ value < 64) := by decide +kernel
  have this := all ⟨symbol.toNat, symbol.toNat_lt⟩
  rw [UInt8.ofNat_toNat, valued, Option.all_some, decide_eq_true_eq] at this
  exact this

theorem octets (bits : Nat) :
    bits / 65536 * 65536 + bits / 256 % 256 * 256 + bits % 256 = bits := by
  omega

/-- What a decoding tells of the symbols: all of them have values, there are at least as many as
bytes, none without bytes, and they are the encoding of the bytes. -/
theorem base64Decode_eq_some {symbols bytes : Bytes} (decoded : base64Decode symbols = some bytes) :
    (∀ symbol ∈ symbols, (base64Value symbol).isSome = true) ∧ bytes.length ≤ symbols.length ∧
      (symbols ≠ [] → bytes ≠ []) ∧ base64Encode bytes = symbols := by
  have byte {value : Nat} (small : value < 256) : (UInt8.ofNat value).toNat = value := by
    simp [Nat.mod_eq_of_lt small]
  induction symbols using base64Decode.induct generalizing bytes with
  | case1 first second third fourth rest induction =>
      rw [base64Decode_bind] at decoded
      simp only [Option.bind_eq_some_iff, Option.map_eq_some_iff] at decoded
      obtain ⟨a, firstValue, b, secondValue, c, thirdValue, d, fourthValue, tail, found, rfl⟩ :=
        decoded
      obtain ⟨valued, shorter, _, encoded⟩ := induction found
      obtain ⟨rfl, aBound⟩ := base64Symbol_of_value firstValue
      obtain ⟨rfl, bBound⟩ := base64Symbol_of_value secondValue
      obtain ⟨rfl, cBound⟩ := base64Symbol_of_value thirdValue
      obtain ⟨rfl, dBound⟩ := base64Symbol_of_value fourthValue
      obtain ⟨bits, total⟩ : ∃ bits, a * 262144 + b * 4096 + c * 64 + d = bits := ⟨_, rfl⟩
      have high : bits / 65536 < 256 := by omega
      have one : bits / 262144 = a := by omega
      have two : bits / 4096 % 64 = b := by omega
      have three : bits / 64 % 64 = c := by omega
      have four : bits % 64 = d := by omega
      refine ⟨?_, by simp only [List.length_cons]; omega, by simp, ?_⟩
      · simp only [List.forall_mem_cons, firstValue, secondValue, thirdValue, fourthValue,
          Option.isSome_some, true_and]
        exact valued
      · simp only [base64Encode, total, byte high, byte (Nat.mod_lt _ (by decide : 256 > 0)), octets,
          one, two, three, four, encoded]
  | case2 first second third =>
      rw [base64Decode_bind_three] at decoded
      simp only [Option.bind_eq_some_iff] at decoded
      obtain ⟨a, firstValue, b, secondValue, c, thirdValue, decoded⟩ := decoded
      obtain ⟨rfl, aBound⟩ := base64Symbol_of_value firstValue
      obtain ⟨rfl, bBound⟩ := base64Symbol_of_value secondValue
      obtain ⟨rfl, cBound⟩ := base64Symbol_of_value thirdValue
      obtain ⟨bits, total⟩ : ∃ bits, a * 262144 + b * 4096 + c * 64 = bits := ⟨_, rfl⟩
      have high : bits / 65536 < 256 := by omega
      have one : bits / 262144 = a := by omega
      have two : bits / 4096 % 64 = b := by omega
      have three : bits / 64 % 64 = c := by omega
      rw [total] at decoded
      split at decoded
      · next clear =>
          obtain rfl := Option.some.inj decoded
          have whole := octets bits
          rw [clear, Nat.add_zero] at whole
          refine ⟨?_, by simp, by simp, ?_⟩
          · simp [firstValue, secondValue, thirdValue]
          · simp only [base64Encode, byte high, byte (Nat.mod_lt _ (by decide : 256 > 0)), whole,
              one, two, three]
      · cases decoded
  | case3 first second =>
      rw [base64Decode_bind_two] at decoded
      simp only [Option.bind_eq_some_iff] at decoded
      obtain ⟨a, firstValue, b, secondValue, decoded⟩ := decoded
      obtain ⟨rfl, aBound⟩ := base64Symbol_of_value firstValue
      obtain ⟨rfl, bBound⟩ := base64Symbol_of_value secondValue
      obtain ⟨bits, total⟩ : ∃ bits, a * 262144 + b * 4096 = bits := ⟨_, rfl⟩
      have high : bits / 65536 < 256 := by omega
      have one : bits / 262144 = a := by omega
      have two : bits / 4096 % 64 = b := by omega
      rw [total] at decoded
      split at decoded
      · next clear =>
          obtain rfl := Option.some.inj decoded
          have whole : bits / 65536 * 65536 = bits :=
            Nat.div_mul_cancel (Nat.dvd_of_mod_eq_zero clear)
          refine ⟨?_, by simp, by simp, ?_⟩
          · simp [firstValue, secondValue]
          · simp only [base64Encode, byte high, whole, one, two]
      · cases decoded
  | case4 first => cases decoded
  | case5 =>
      obtain rfl := Option.some.inj decoded
      exact ⟨by simp, le_rfl, by simp, rfl⟩

/-- A text spells symbols in front of a rest: a byte spells itself, and an escape spells a byte. -/
inductive Spells : Bytes → Bytes → Bytes → Prop
  | done (text) : Spells text [] text
  | plain {symbol text symbols rest} : symbol ≠ 92 → Spells text symbols rest →
      Spells (symbol :: text) (symbol :: symbols) rest
  | escape {byte text after symbols rest} : unescape text = .ok (byte, after) →
      Spells after symbols rest → Spells (92 :: text) (byte :: symbols) rest

theorem unescape_unicode (rest : Bytes) :
    unescape (117 :: rest) =
      if rest.length < 4 then .error .unexpectedEnd
      else (hexByte (rest.take 4)).map fun byte => (byte, rest.drop 4) := by
  match rest with
  | [] => rfl
  | [_] => rfl
  | [_, _] => rfl
  | [_, _, _] => rfl
  | first :: second :: third :: fourth :: rest =>
      rw [if_neg (by simp)]
      simp only [unescape, hexByte, if_true, List.take_succ_cons, List.take_zero,
        List.drop_succ_cons, List.drop_zero]
      cases [first, second, third, fourth].mapM decodeHexNibble with
      | none => rfl
      | some digits =>
          simp only
          split <;> rfl

theorem unescape_short {escaped : UInt8} (short : escaped ≠ 117) (rest : Bytes) :
    unescape (escaped :: rest) = (shortEscape escaped).map fun byte => (byte, rest) := by
  simp only [unescape, shortEscape, if_neg short]
  split_ifs <;> rfl

theorem unescape_suffix {text after : Bytes} {byte : UInt8}
    (read : unescape text = .ok (byte, after)) : after <:+ text ∧ after.length < text.length := by
  cases text with
  | nil => cases read
  | cons escaped rest =>
      by_cases unicode : escaped = 117
      · rw [unicode, unescape_unicode] at read
        split at read
        · cases read
        · cases spelled : hexByte (rest.take 4) with
          | error _ => rw [spelled] at read; cases read
          | ok value =>
              rw [spelled] at read
              obtain ⟨_, rfl⟩ := Prod.mk.inj (Except.ok.inj read)
              refine ⟨(List.drop_suffix 4 rest).trans (List.suffix_cons escaped rest), ?_⟩
              rw [List.length_drop, List.length_cons]
              omega
      · rw [unescape_short unicode] at read
        cases spelled : shortEscape escaped with
        | error _ => rw [spelled] at read; cases read
        | ok value =>
            rw [spelled] at read
            obtain ⟨_, rfl⟩ := Prod.mk.inj (Except.ok.inj read)
            exact ⟨List.suffix_cons escaped rest, Nat.lt_succ_self _⟩

namespace Spells

theorem trans {text symbols rest others after : Bytes} (first : Spells text symbols rest)
    (second : Spells rest others after) : Spells text (symbols ++ others) after := by
  induction first with
  | done => exact second
  | plain other _ induction => exact .plain other (induction second)
  | escape read _ induction => exact .escape read (induction second)

theorem length_le {text symbols rest : Bytes} (spells : Spells text symbols rest) :
    symbols.length + rest.length ≤ text.length := by
  induction spells with
  | done => simp
  | plain _ _ induction =>
      simp only [List.length_cons]
      omega
  | escape read _ induction =>
      obtain ⟨_, shorter⟩ := unescape_suffix read
      simp only [List.length_cons]
      omega

theorem suffix {text symbols rest : Bytes} (spells : Spells text symbols rest) : rest <:+ text := by
  induction spells with
  | done => exact List.suffix_rfl
  | plain _ _ induction => exact induction.trans (List.suffix_cons _ _)
  | escape read _ induction =>
      exact induction.trans ((unescape_suffix read).1.trans (List.suffix_cons _ _))

theorem of_plain {front : Bytes} (plain : ∀ byte ∈ front, byte ≠ 92) (rest : Bytes) :
    Spells (front ++ rest) front rest := by
  induction front with
  | nil => exact .done rest
  | cons byte front induction =>
      exact .plain (plain byte List.mem_cons_self)
        (induction fun other member => plain other (List.mem_cons_of_mem _ member))

/-- What a whole text spells begins with what a front of it spells. -/
theorem split {text symbols front rest : Bytes} (whole : Spells text symbols [])
    (part : Spells text front rest) : ∃ later, symbols = front ++ later ∧ Spells rest later [] := by
  induction part generalizing symbols with
  | done => exact ⟨symbols, rfl, whole⟩
  | plain other _ induction =>
      cases whole with
      | plain _ whole =>
          obtain ⟨later, rfl, spells⟩ := induction whole
          exact ⟨later, rfl, spells⟩
      | escape _ _ => exact absurd rfl other
  | escape read _ induction =>
      cases whole with
      | plain other _ => exact absurd rfl other
      | escape again whole =>
          obtain ⟨rfl, rfl⟩ := Prod.mk.inj (Except.ok.inj (again.symm.trans read))
          obtain ⟨later, rfl, spells⟩ := induction whole
          exact ⟨later, rfl, spells⟩

end Spells

/-- The bytes that a text in base64 decodes to. -/
def Decodes (text bytes : Bytes) : Prop :=
  ∃ symbols, Spells text symbols [] ∧ base64Decode symbols = some bytes

/-! ## The reader follows the text -/

theorem flatten_fillBuf (parts : Parts) : (fillBuf parts).flatten = parts.flatten := by
  induction parts with
  | nil => rfl
  | cons part parts induction =>
      cases part with
      | nil => exact induction
      | cons byte part => rfl

/-- Reading goes on as long as there are bytes. -/
theorem fillBuf_cases (parts : Parts) :
    fillBuf parts = [] ∧ parts.flatten = [] ∨
      ∃ byte part others, fillBuf parts = (byte :: part) :: others := by
  induction parts with
  | nil => exact .inl ⟨rfl, rfl⟩
  | cons part parts induction =>
      cases part with
      | nil => exact induction
      | cons byte part => exact .inr ⟨byte, part, parts, rfl⟩

theorem readU8_of_nil {parts : Parts} (empty : parts.flatten = []) :
    readU8 parts = .error .unexpectedEnd := by
  rcases fillBuf_cases parts with ⟨none, _⟩ | ⟨byte, part, others, filled⟩
  · rw [readU8, none]
  · rw [← flatten_fillBuf, filled] at empty
    cases empty

theorem readU8_of_cons {parts : Parts} {byte : UInt8} {rest : Bytes}
    (flat : parts.flatten = byte :: rest) :
    ∃ after, readU8 parts = .ok (byte, after) ∧ after.flatten = rest := by
  rcases fillBuf_cases parts with ⟨_, empty⟩ | ⟨first, part, others, filled⟩
  · rw [empty] at flat
    cases flat
  · rw [← flatten_fillBuf, filled, List.flatten_cons, List.cons_append] at flat
    obtain ⟨rfl, rfl⟩ := List.cons.inj flat
    exact ⟨part :: others, by rw [readU8, filled], rfl⟩

theorem readExact_eq (count : Nat) (parts : Parts) :
    (parts.flatten.length < count ∧ readExact count parts = .error .unexpectedEnd) ∨
      (count ≤ parts.flatten.length ∧ ∃ after,
        readExact count parts = .ok (parts.flatten.take count, after) ∧
          after.flatten = parts.flatten.drop count) := by
  induction count generalizing parts with
  | zero => exact .inr ⟨Nat.zero_le _, parts, rfl, rfl⟩
  | succ count induction =>
      cases flat : parts.flatten with
      | nil =>
          refine .inl ⟨Nat.succ_pos _, ?_⟩
          rw [readExact, readU8_of_nil flat]
          rfl
      | cons byte rest =>
          obtain ⟨after, read, rfl⟩ := readU8_of_cons flat
          rw [readExact, read]
          rcases induction after with ⟨short, failed⟩ | ⟨long, last, taken, rest⟩
          · refine .inl ⟨Nat.succ_lt_succ short, ?_⟩
            simp only [bind, Except.bind, failed]
          · refine .inr ⟨Nat.succ_le_succ long, last, ?_, rest⟩
            simp only [bind, Except.bind, taken]
            rfl

/-- An escape is read as the text has it, in whatever parts it comes. -/
theorem readEscape_eq (parts : Parts) :
    (∃ failure, readEscape parts = .error failure ∧ unescape parts.flatten = .error failure) ∨
      ∃ byte after used, readEscape parts = .ok (byte, after, used) ∧
        unescape parts.flatten = .ok (byte, after.flatten) ∧
          used + after.flatten.length = parts.flatten.length := by
  cases flat : parts.flatten with
  | nil =>
      refine .inl ⟨.unexpectedEnd, ?_, rfl⟩
      rw [readEscape, readU8_of_nil flat]
      rfl
  | cons escaped rest =>
      obtain ⟨after, read, rfl⟩ := readU8_of_cons flat
      simp only [readEscape, read, bind, Except.bind]
      by_cases unicode : escaped = 117
      · rw [if_pos unicode, unicode, unescape_unicode]
        rcases readExact_eq 4 after with ⟨short, failed⟩ | ⟨long, last, taken, left⟩
        · exact .inl ⟨.unexpectedEnd, by rw [failed], if_pos short⟩
        · rw [taken, if_neg (by omega)]
          simp only
          cases hexByte (after.flatten.take 4) with
          | error failure => exact .inl ⟨failure, rfl, rfl⟩
          | ok byte =>
              refine .inr ⟨byte, last, 5, rfl, by rw [left]; rfl, ?_⟩
              rw [left, List.length_drop, List.length_cons]
              omega
      · rw [if_neg unicode, unescape_short unicode]
        cases shortEscape escaped with
        | error failure => exact .inl ⟨failure, rfl, rfl⟩
        | ok byte => exact .inr ⟨byte, after, 1, rfl, rfl, by rw [List.length_cons, Nat.add_comm]⟩

theorem plain_take_findIdx (available : Bytes) {count : Nat}
    (few : count ≤ available.findIdx (· = 92)) : ∀ byte ∈ available.take count, byte ≠ 92 := by
  intro byte member
  obtain ⟨place, inside, rfl⟩ := List.mem_take_iff_getElem.mp member
  simpa using List.not_of_lt_findIdx (show place < available.findIdx (· = 92) by omega)

/-- The loop takes symbols that the text spells, up to the size of a block or the end of the text, and
it fails only when the text does not spell symbols to its end. -/
theorem symbols_eq {rounds : Nat} {encoded : Bytes} {decoder : Decoder}
    (enough : decoder.parts.flatten.length < rounds) (small : encoded.length ≤ decodeBlock) :
    (∃ failure, decoder.symbols rounds encoded = .error failure ∧
      ∀ all, ¬ Spells decoder.parts.flatten all []) ∨
    ∃ front after, decoder.symbols rounds encoded = .ok (encoded ++ front, after) ∧
      Spells decoder.parts.flatten front after.parts.flatten ∧
      after.rawPosition + after.parts.flatten.length =
        decoder.rawPosition + decoder.parts.flatten.length ∧
      ((encoded ++ front).length = decodeBlock ∨
        (encoded ++ front).length ≤ decodeBlock ∧ after.parts.flatten = []) := by
  induction rounds generalizing encoded decoder with
  | zero => omega
  | succ rounds induction =>
      rw [Decoder.symbols]
      by_cases room : encoded.length < decodeBlock
      · rw [if_pos room]
        rcases fillBuf_cases decoder.parts with ⟨none, empty⟩ | ⟨byte, part, others, filled⟩
        · rw [none]
          exact .inr ⟨[], ⟨[], decoder.rawPosition⟩, by simp, by rw [empty]; exact .done _,
            by simp [empty], .inr ⟨by simpa using small, rfl⟩⟩
        · have flat : decoder.parts.flatten = (byte :: part) ++ others.flatten := by
            rw [← flatten_fillBuf, filled, List.flatten_cons]
          rw [filled]
          simp only
          obtain ⟨count, chosen⟩ : ∃ count, min ((byte :: part).findIdx (· = 92))
            (decodeBlock - encoded.length) = count := ⟨_, rfl⟩
          have within : count ≤ (byte :: part).length := by
            have := @List.findIdx_le_length _ (fun byte : UInt8 => decide (byte = 92)) (byte :: part)
            omega
          rw [chosen]
          by_cases some : 0 < count
          · rw [if_pos some]
            have plain := plain_take_findIdx (byte :: part) (show count ≤ _ by omega)
            have cut : decoder.parts.flatten =
                (byte :: part).take count ++ ((byte :: part).drop count ++ others.flatten) := by
              rw [flat, ← List.append_assoc, List.take_append_drop]
            have shorter : ((byte :: part).drop count ++ others.flatten).length + count =
                decoder.parts.flatten.length := by
              have total := congrArg List.length cut
              rw [List.length_append, List.length_take_of_le within] at total
              omega
            have taken : (encoded ++ (byte :: part).take count).length ≤ decodeBlock := by
              rw [List.length_append, List.length_take_of_le within]
              omega
            have run := Spells.of_plain plain ((byte :: part).drop count ++ others.flatten)
            rw [← cut] at run
            rcases @induction (encoded ++ (byte :: part).take count)
                ⟨(byte :: part).drop count :: others, decoder.rawPosition + count⟩
                (by rw [List.flatten_cons]; omega) taken with
              ⟨failure, failed, wrong⟩ | ⟨front, after, found, spells, position, size⟩
            · refine .inl ⟨failure, failed, fun all whole => ?_⟩
              obtain ⟨later, _, rest⟩ := whole.split run
              exact wrong later rest
            · refine .inr ⟨(byte :: part).take count ++ front, after, ?_, run.trans spells, ?_, ?_⟩
              · rw [found, List.append_assoc]
              · rw [position]
                simp only [List.flatten_cons]
                omega
              · rwa [← List.append_assoc]
          · rw [if_neg some]
            have backslash : byte = 92 := by
              by_contra other
              rw [List.findIdx_cons] at chosen
              simp only [other, decide_false, cond_false] at chosen
              omega
            subst backslash
            have flat : decoder.parts.flatten = 92 :: (part :: others).flatten := flat
            rcases readEscape_eq (part :: others) with
              ⟨failure, failed, wrong⟩ | ⟨byte, parts, used, read, unescaped, moved⟩
            · rw [List.drop_one, List.tail_cons, failed]
              refine .inl ⟨failure, rfl, fun all whole => ?_⟩
              rw [flat] at whole
              cases whole with
              | plain other _ => exact other rfl
              | escape right _ => rw [wrong] at right; cases right
            · obtain ⟨_, shorter⟩ := unescape_suffix unescaped
              have total := congrArg List.length flat
              rw [List.length_cons] at total
              rw [List.drop_one, List.tail_cons, read]
              rcases @induction (encoded ++ [byte]) ⟨parts, decoder.rawPosition + 1 + used⟩
                  (by simp only; omega) (by simpa using by omega) with
                ⟨failure, failed, wrong⟩ | ⟨front, after, found, spells, position, size⟩
              · refine .inl ⟨failure, failed, fun all whole => ?_⟩
                rw [flat] at whole
                cases whole with
                | plain other _ => exact other rfl
                | escape right whole =>
                    obtain ⟨_, same⟩ := Prod.mk.inj (Except.ok.inj (right.symm.trans unescaped))
                    exact wrong _ (same ▸ whole)
              · refine .inr ⟨byte :: front, after, ?_, ?_, ?_, ?_⟩
                · rw [← List.append_cons] at found
                  exact found
                · rw [flat]
                  exact .escape unescaped spells
                · simp only at position
                  omega
                · rwa [← List.append_cons] at size
      · rw [if_neg room]
        exact .inr ⟨[], decoder, by simp, .done _, rfl, .inl (by simpa using by omega)⟩

theorem Spells.of_nil {symbols : Bytes} (spells : Spells [] symbols []) : symbols = [] := by
  cases spells
  rfl

theorem Spells.nil {text : Bytes} (spells : Spells text [] []) : text = [] := by
  cases spells
  rfl

theorem Decodes.of_nil {decoded : Bytes} : Decodes [] decoded ↔ decoded = [] := by
  constructor
  · rintro ⟨symbols, spells, found⟩
    rw [spells.of_nil] at found
    exact (Option.some.inj found).symm
  · rintro rfl
    exact ⟨[], .done [], rfl⟩

/-- What `next` does: it fails when the text decodes to nothing at all, it ends with the text, or it
delivers the first bytes of whatever the text decodes to, and gets on in the text. -/
inductive Advances (decoder : Decoder) : Except ScanError (Option Bytes × Decoder) → Prop
  | fails {failure} : (∀ decoded, ¬ Decodes decoder.parts.flatten decoded) →
      Advances decoder (.error failure)
  | ends {after} : decoder.parts.flatten = [] → Advances decoder (.ok (none, after))
  | delivers {block after} : block ≠ [] →
      after.rawPosition + after.parts.flatten.length =
        decoder.rawPosition + decoder.parts.flatten.length →
      after.parts.flatten <:+ decoder.parts.flatten →
      after.parts.flatten.length < decoder.parts.flatten.length →
      (∀ decoded, Decodes decoder.parts.flatten decoded ↔
        ∃ later, decoded = block ++ later ∧ Decodes after.parts.flatten later) →
      Advances decoder (.ok (some block, after))

/-- A front of whole groups, or one with nothing behind it, is decoded on its own. -/
theorem decodes_iff {text front rest block : Bytes} (spells : Spells text front rest)
    (whole : front.length % 4 = 0 ∨ rest = []) (found : base64Decode front = some block)
    (decoded : Bytes) :
    Decodes text decoded ↔ ∃ later, decoded = block ++ later ∧ Decodes rest later := by
  rcases whole with whole | rfl
  · constructor
    · rintro ⟨symbols, all, value⟩
      obtain ⟨others, rfl, behind⟩ := all.split spells
      rw [base64Decode_append others whole, found, Option.bind_some, Option.map_eq_some_iff] at value
      obtain ⟨later, decodes, rfl⟩ := value
      exact ⟨later, rfl, others, behind, decodes⟩
    · rintro ⟨later, rfl, others, behind, decodes⟩
      refine ⟨front ++ others, spells.trans behind, ?_⟩
      rw [base64Decode_append others whole, found, decodes]
      rfl
  · simp only [Decodes.of_nil, exists_eq_right, List.append_nil]
    constructor
    · rintro ⟨symbols, all, value⟩
      obtain ⟨others, rfl, behind⟩ := all.split spells
      rw [behind.of_nil, List.append_nil, found] at value
      exact (Option.some.inj value).symm
    · rintro rfl
      exact ⟨front, spells, found⟩

/-- A text whose front of whole groups, or with nothing behind it, has no value decodes to nothing. -/
theorem not_decodes {text front rest : Bytes} (spells : Spells text front rest)
    (whole : front.length % 4 = 0 ∨ rest = []) (wrong : base64Decode front = none)
    (decoded : Bytes) : ¬ Decodes text decoded := by
  rintro ⟨symbols, all, value⟩
  obtain ⟨others, rfl, behind⟩ := all.split spells
  rcases whole with whole | rfl
  · rw [base64Decode_append others whole, wrong] at value
    cases value
  · rw [behind.of_nil, List.append_nil, wrong] at value
    cases value

theorem advances_next (decoder : Decoder) : Advances decoder decoder.next := by
  rw [Decoder.next]
  rcases @symbols_eq _ [] decoder (Nat.lt_succ_self _) (Nat.zero_le _) with
    ⟨failure, failed, wrong⟩ | ⟨front, after, found, spells, position, size⟩
  · rw [failed]
    exact .fails fun decoded ⟨symbols, all, _⟩ => wrong symbols all
  · rw [found]
    simp only [List.nil_append, bind, Except.bind] at size ⊢
    have whole : front.length % 4 = 0 ∨ after.parts.flatten = [] :=
      size.imp (fun full => by rw [full]; rfl) And.right
    by_cases none : front = []
    · rw [if_pos none]
      subst none
      refine .ends ?_
      rcases size with full | ⟨_, finished⟩
      · cases full
      · rw [finished] at spells
        exact spells.nil
    · rw [if_neg none]
      cases value : base64Decode front with
      | none => exact .fails (not_decodes spells whole value)
      | some block =>
          obtain ⟨_, _, filled, _⟩ := base64Decode_eq_some value
          have shorter := spells.length_le
          have some : 0 < front.length := List.length_pos_iff.mpr none
          exact .delivers (filled none) position spells.suffix (by omega)
            (decodes_iff spells whole value)

/-- What holds between the rounds of a scan.  The text that is left begins at the position; what the
text decodes to begins with the bytes that were hashed; and a checkpoint is a place of the text from
which on it decodes to what is behind the number of bytes recorded there. -/
structure Scanned (encoded : Bytes) (decoder : Decoder) (state : ScanState) : Prop where
  left : decoder.parts.flatten = encoded.drop decoder.rawPosition
  inside : decoder.rawPosition ≤ encoded.length
  counted : state.len = state.hashed.flatten.length
  decodes : ∀ decoded, Decodes encoded decoded ↔
    ∃ later, decoded = state.hashed.flatten ++ later ∧ Decodes decoder.parts.flatten later
  first : state.checkpoints.head? = some (0, 0)
  increasing : state.checkpoints.Pairwise fun before after =>
    before.1 < after.1 ∧ before.2 < after.2
  behind : ∀ mark ∈ state.checkpoints, mark.1 ≤ decoder.rawPosition ∧ mark.2 ≤ state.len ∧
    ∀ later, Decodes decoder.parts.flatten later →
      Decodes (encoded.drop mark.1) ((state.hashed.flatten ++ later).drop mark.2)
  few : state.checkpoints.length ≤ 4097
  spaced : ∃ last, state.checkpoints.getLast? = some last ∧
    state.nextCheckpoint = min (last.1 + checkpointStride encoded.length) maxUsize ∧
    (last.1 < encoded.length →
      (state.checkpoints.length - 1) * checkpointStride encoded.length ≤ last.1)

theorem le_checkpointStride (length : Nat) : length ≤ 4096 * checkpointStride length := by
  have : (length + 4095) / 4096 ≤ checkpointStride length := Nat.le_max_left _ _
  omega

namespace Scanned

variable {encoded : Bytes} {decoder after : Decoder} {state : ScanState}

theorem initial (parts : Parts) (whole : parts.flatten = encoded)
    (bounded : encoded.length ≤ maxUsize) :
    Scanned encoded ⟨parts, 0⟩
      { checkpoints := [(0, 0)], nextCheckpoint := checkpointStride encoded.length, len := 0,
        hashed := [] } where
  left := whole
  inside := Nat.zero_le _
  counted := rfl
  decodes decoded := by simp [whole]
  first := rfl
  increasing := List.pairwise_singleton _ _
  behind mark member := by
    obtain rfl := List.mem_singleton.mp member
    exact ⟨le_rfl, le_rfl, fun later decodes => by simpa [whole] using decodes⟩
  few := by simp
  spaced := by
    have short : checkpointStride encoded.length ≤ maxUsize := by
      simp only [checkpointStride, maxUsize, decodeBlock] at *
      omega
    exact ⟨(0, 0), rfl, by simpa using short, by simp⟩

/-- The invariant without what is said of checkpoints is kept by a block, and so is what is said of
the old checkpoints; a new one is good too. -/
theorem take_block {block : Bytes} (scanned : Scanned encoded decoder state)
    (position : after.rawPosition + after.parts.flatten.length =
      decoder.rawPosition + decoder.parts.flatten.length)
    (suffix : after.parts.flatten <:+ decoder.parts.flatten)
    (shorter : after.parts.flatten.length < decoder.parts.flatten.length)
    (decodes : ∀ decoded, Decodes decoder.parts.flatten decoded ↔
      ∃ later, decoded = block ++ later ∧ Decodes after.parts.flatten later) :
    after.parts.flatten = encoded.drop after.rawPosition ∧
      decoder.rawPosition < after.rawPosition ∧ after.rawPosition ≤ encoded.length ∧
      (∀ decoded, Decodes encoded decoded ↔ ∃ later,
        decoded = (state.hashed ++ [block]).flatten ++ later ∧ Decodes after.parts.flatten later) ∧
      ∀ mark, (mark ∈ state.checkpoints ∨ mark = (after.rawPosition, state.len + block.length)) →
        mark.1 ≤ after.rawPosition ∧ mark.2 ≤ state.len + block.length ∧
          ∀ later, Decodes after.parts.flatten later →
            Decodes (encoded.drop mark.1)
              (((state.hashed ++ [block]).flatten ++ later).drop mark.2) := by
  have total := congrArg List.length scanned.left
  rw [List.length_drop] at total
  have inside := scanned.inside
  have left : after.parts.flatten = encoded.drop after.rawPosition := by
    have within : after.parts.flatten <:+ encoded :=
      suffix.trans (scanned.left ▸ List.drop_suffix _ _)
    rw [List.suffix_iff_eq_drop.mp within]
    congr 1
    omega
  have flat : (state.hashed ++ [block]).flatten = state.hashed.flatten ++ block := by simp
  refine ⟨left, by omega, by omega, fun decoded => ?_, ?_⟩
  · rw [scanned.decodes, flat]
    simp only [decodes, List.append_assoc]
    constructor
    · rintro ⟨_, rfl, later, rfl, found⟩
      exact ⟨later, rfl, found⟩
    · rintro ⟨later, rfl, found⟩
      exact ⟨_, rfl, later, rfl, found⟩
  · rw [flat]
    rintro mark (member | rfl)
    · obtain ⟨before, few, aligned⟩ := scanned.behind mark member
      refine ⟨by omega, by omega, fun later found => ?_⟩
      rw [List.append_assoc]
      exact aligned _ ((decodes _).mpr ⟨later, rfl, found⟩)
    · refine ⟨le_rfl, le_rfl, fun later found => ?_⟩
      have count : (state.hashed.flatten ++ block).length = state.len + block.length := by
        rw [List.length_append, scanned.counted]
      simp only
      rw [← count, List.drop_left, ← left]
      exact found

/-- A checkpoint is at least a stride behind the one before it, or at the end of the text. -/
theorem take {block : Bytes} (scanned : Scanned encoded decoder state)
    (bounded : encoded.length ≤ maxUsize) (filled : block ≠ [])
    (position : after.rawPosition + after.parts.flatten.length =
      decoder.rawPosition + decoder.parts.flatten.length)
    (suffix : after.parts.flatten <:+ decoder.parts.flatten)
    (shorter : after.parts.flatten.length < decoder.parts.flatten.length)
    (decodes : ∀ decoded, Decodes decoder.parts.flatten decoded ↔
      ∃ later, decoded = block ++ later ∧ Decodes after.parts.flatten later) :
    Scanned encoded after
      (state.take (checkpointStride encoded.length) after.rawPosition block) := by
  obtain ⟨left, further, inside, whole, marks⟩ :=
    scanned.take_block position suffix shorter decodes
  have counted : state.len + block.length = (state.hashed ++ [block]).flatten.length := by
    simp [scanned.counted]
  have some : 0 < block.length := List.length_pos_iff.mpr filled
  obtain ⟨last, latest, next, few⟩ := scanned.spaced
  by_cases due : state.nextCheckpoint ≤ after.rawPosition
  · rw [ScanState.take, if_pos due]
    have member := List.mem_of_getLast? latest
    have before := (scanned.behind last member).1
    have spaced := few (by omega)
    have stride := le_checkpointStride encoded.length
    have under : state.checkpoints.length - 1 < 4096 := by
      by_contra many
      have := Nat.mul_le_mul_right (checkpointStride encoded.length) (Nat.le_of_not_lt many)
      omega
    refine ⟨left, inside, counted, whole, ?_, ?_, ?_, ?_, ?_⟩
    · simp only
      rw [List.head?_append_of_ne_nil _ (List.ne_nil_of_mem member)]
      exact scanned.first
    · refine List.pairwise_append.mpr ⟨scanned.increasing, List.pairwise_singleton _ _, ?_⟩
      intro old member new again
      obtain rfl := List.mem_singleton.mp again
      obtain ⟨front, few, _⟩ := scanned.behind old member
      exact ⟨by simp only; omega, by simp only; omega⟩
    · intro mark member
      refine marks mark ?_
      simpa using member
    · simp only [List.length_append, List.length_singleton]
      omega
    · refine ⟨_, List.getLast?_concat, rfl, fun inner => ?_⟩
      simp only [List.length_append, List.length_singleton, Nat.add_sub_cancel] at inner ⊢
      have many : 0 < state.checkpoints.length := List.length_pos_of_mem member
      obtain ⟨count, same⟩ : ∃ count, state.checkpoints.length = count + 1 :=
        ⟨state.checkpoints.length - 1, by omega⟩
      rw [same, Nat.add_sub_cancel] at spaced
      rw [same, Nat.succ_mul]
      omega
  · rw [ScanState.take, if_neg due]
    exact ⟨left, inside, counted, whole, scanned.first, scanned.increasing,
      fun mark member => marks mark (.inl member), scanned.few, last, latest, next, few⟩

end Scanned

theorem Decodes.length_le {text decoded : Bytes} (decodes : Decodes text decoded) :
    decoded.length ≤ text.length := by
  obtain ⟨symbols, spells, found⟩ := decodes
  obtain ⟨_, few, _⟩ := base64Decode_eq_some found
  have := spells.length_le
  omega

/-- A scan ends with what the text decodes to, or fails on a text that decodes to nothing. -/
theorem scanLoop_eq {encoded : Bytes} {rounds : Nat} {decoder : Decoder} {state : ScanState}
    (bounded : encoded.length ≤ maxUsize) (enough : decoder.parts.flatten.length < rounds)
    (scanned : Scanned encoded decoder state) :
    (∃ failure, scanLoop (checkpointStride encoded.length) rounds decoder state = .error failure ∧
      ∀ decoded, ¬ Decodes encoded decoded) ∨
    ∃ last final, scanLoop (checkpointStride encoded.length) rounds decoder state = .ok final ∧
      last.parts.flatten = [] ∧ Scanned encoded last final := by
  induction rounds generalizing decoder state with
  | zero => omega
  | succ rounds induction =>
      rw [scanLoop]
      have moves := advances_next decoder
      cases result : decoder.next with
      | error failure =>
          rw [result] at moves
          cases moves with
          | fails wrong =>
              refine .inl ⟨failure, rfl, fun decoded decodes => ?_⟩
              obtain ⟨later, _, found⟩ := (scanned.decodes decoded).mp decodes
              exact wrong later found
      | ok step =>
          obtain ⟨block, after⟩ := step
          rw [result] at moves
          cases moves with
          | ends finished => exact .inr ⟨decoder, state, rfl, finished, scanned⟩
          | @delivers block after filled position suffix shorter decodes =>
              simp only [bind, Except.bind]
              by_cases room : state.len + block.length ≤ maxUsize
              · rw [if_pos room]
                exact induction (by omega)
                  (scanned.take bounded filled position suffix shorter decodes)
              · rw [if_neg room]
                refine .inl ⟨_, rfl, fun decoded whole => ?_⟩
                obtain ⟨later, rfl, found⟩ := (scanned.decodes decoded).mp whole
                obtain ⟨later, rfl, _⟩ := (decodes later).mp found
                have few := whole.length_le
                rw [List.length_append, List.length_append, ← scanned.counted] at few
                omega

section Content

variable (suite : HashSuite) {buffers : Bytes → Parts} {encoded : Bytes}

/-- What a scan returns for a text that decodes to `decoded`. -/
structure ScanOf (encoded decoded : Bytes) (data : Base64Data) : Prop where
  encoded_eq : data.encoded = encoded
  len_eq : data.len = decoded.length
  first : data.checkpoints.head? = some (0, 0)
  increasing : data.checkpoints.Pairwise fun before after => before.1 < after.1 ∧ before.2 < after.2
  few : data.checkpoints.length ≤ 4097
  aligned : ∀ mark ∈ data.checkpoints, mark.1 ≤ encoded.length ∧ mark.2 ≤ decoded.length ∧
    Decodes (encoded.drop mark.1) (decoded.drop mark.2)

theorem scan_eq (whole : (buffers encoded).flatten = encoded)
    (bounded : encoded.length ≤ maxUsize) :
    (∃ failure, Base64Data.scan suite buffers encoded = .error failure ∧
      ∀ decoded, ¬ Decodes encoded decoded) ∨
    ∃ data decoded, Base64Data.scan suite buffers encoded =
        .ok (data, suite.sha256 [decoded], suite.sha384 [decoded]) ∧
      Decodes encoded decoded ∧ ScanOf encoded decoded data := by
  rw [Base64Data.scan]
  rcases @scanLoop_eq encoded (encoded.length + 1) ⟨buffers encoded, 0⟩ _ bounded (by simp [whole])
      (Scanned.initial (buffers encoded) whole bounded) with
    ⟨failure, failed, wrong⟩ | ⟨last, final, found, finished, scanned⟩
  · exact .inl ⟨failure, by simp only [failed, bind, Except.bind], wrong⟩
  · have none : Decodes last.parts.flatten [] := by
      rw [finished]
      exact Decodes.of_nil.mpr rfl
    have decodes := (scanned.decodes final.hashed.flatten).mpr ⟨[], by simp, none⟩
    refine .inr ⟨⟨encoded, final.checkpoints, final.len⟩, final.hashed.flatten, ?_, decodes, rfl,
      scanned.counted, scanned.first, scanned.increasing, scanned.few, fun mark member => ?_⟩
    · simp only [found, bind, Except.bind, pure, Except.pure, HashSuite.sha256, HashSuite.sha384,
        List.flatten_cons, List.flatten_nil, List.append_nil]
    · obtain ⟨front, few, aligned⟩ := scanned.behind mark member
      have inside := scanned.inside
      have counted := scanned.counted
      exact ⟨by omega, by omega, by simpa using aligned [] none⟩

/-- A stream from a place where the text decodes to enough bytes delivers those asked for. -/
theorem streamLoop_eq {rounds : Nat} {decoder : Decoder} {skip remaining : Nat} {decoded : Bytes}
    (enough : decoder.parts.flatten.length < rounds)
    (decodes : Decodes decoder.parts.flatten decoded) (within : skip + remaining ≤ decoded.length) :
    ∃ pieces, streamLoop rounds decoder skip remaining = .ok pieces ∧
      pieces.flatten = (decoded.drop skip).take remaining := by
  induction rounds generalizing decoder skip remaining decoded with
  | zero => omega
  | succ rounds induction =>
      cases remaining with
      | zero => exact ⟨[], rfl, by simp⟩
      | succ remaining =>
          rw [streamLoop]
          have moves := advances_next decoder
          cases result : decoder.next with
          | error failure =>
              rw [result] at moves
              cases moves with
              | fails wrong => exact absurd decodes (wrong decoded)
          | ok step =>
              obtain ⟨block, after⟩ := step
              rw [result] at moves
              cases moves with
              | ends finished =>
                  rw [finished, Decodes.of_nil] at decodes
                  subst decodes
                  simp at within
              | @delivers block after filled position suffix shorter begins =>
                  obtain ⟨later, rfl, behind⟩ := (begins decoded).mp decodes
                  rw [List.length_append] at within
                  simp only [bind, Except.bind]
                  by_cases whole : block.length ≤ skip
                  · rw [if_pos whole, List.drop_append, List.drop_of_length_le whole, List.nil_append]
                    exact induction (by omega) behind (by omega)
                  · rw [if_neg whole]
                    obtain ⟨count, chosen⟩ : ∃ count,
                      min (block.length - skip) (remaining + 1) = count := ⟨_, rfl⟩
                    obtain ⟨pieces, delivered, flat⟩ :=
                      @induction after 0 (remaining + 1 - count) later (by omega) behind (by omega)
                    rw [chosen, delivered]
                    refine ⟨_, rfl, ?_⟩
                    rw [List.flatten_cons, flat, List.drop_zero,
                      List.drop_append_of_le_length (by omega), List.take_append, List.length_drop]
                    by_cases most : block.length - skip ≤ remaining + 1
                    · have front : (block.drop skip).length = block.length - skip := List.length_drop
                      rw [show count = block.length - skip by omega, ← front, List.take_length,
                        List.take_of_length_le (show (block.drop skip).length ≤ _ by omega)]
                    · rw [show count = remaining + 1 by omega, Nat.sub_self,
                        show remaining + 1 - (block.length - skip) = 0 by omega]

theorem checkpointFor_eq {decoded : Bytes} {data : Base64Data} (scan : ScanOf encoded decoded data)
    (offset : Nat) :
    data.checkpointFor offset ∈ data.checkpoints ∧ (data.checkpointFor offset).2 ≤ offset := by
  obtain ⟨others, same⟩ := List.head?_eq_some_iff.mp scan.first
  obtain ⟨front, taken⟩ : ∃ front, data.checkpoints.takeWhile
    (fun checkpoint => checkpoint.2 ≤ offset) = front := ⟨_, rfl⟩
  have some : front ≠ [] := by
    rw [← taken, same, List.takeWhile_cons_of_pos (by simp)]
    exact List.cons_ne_nil _ _
  have inner : front.length - 1 < front.length :=
    Nat.sub_lt (List.length_pos_iff.mpr some) Nat.one_pos
  have early : front.getLast some ∈ data.checkpoints.takeWhile
      (fun checkpoint => checkpoint.2 ≤ offset) := taken ▸ List.getLast_mem some
  have chosen : data.checkpointFor offset = front.getLast some := by
    simp only [Base64Data.checkpointFor, taken]
    obtain ⟨rest, whole⟩ : front <+: data.checkpoints := taken ▸ List.takeWhile_prefix _
    rw [← whole, List.getD_eq_getElem?_getD, List.getElem?_append_left inner,
      ← List.getLast?_eq_getElem?, List.getLast?_eq_some_getLast some, Option.getD_some]
  rw [chosen]
  exact ⟨List.takeWhile_subset _ early, by simpa using List.all_eq_true.mp List.all_takeWhile _ early⟩

/-- A stream delivers the bytes asked for, whatever the parts are in which the text is read. -/
theorem stream_eq {decoded : Bytes} {data : Base64Data} (scan : ScanOf encoded decoded data)
    (whole : ∀ content, (buffers content).flatten = content) {offset length : Nat}
    (within : offset + length ≤ decoded.length) :
    ∃ pieces, data.stream buffers offset length = .ok pieces ∧
      pieces.flatten = (decoded.drop offset).take length := by
  obtain ⟨member, before⟩ := checkpointFor_eq scan offset
  obtain ⟨_, _, decodes⟩ := scan.aligned _ member
  obtain ⟨pieces, delivered, flat⟩ := @streamLoop_eq
    ((data.encoded.drop (data.checkpointFor offset).1).length + 1)
    ⟨buffers (data.encoded.drop (data.checkpointFor offset).1), 0⟩
    (offset - (data.checkpointFor offset).2) length _ (by simp [whole])
    (by simpa only [whole, scan.encoded_eq] using decodes) (by rw [List.length_drop]; omega)
  refine ⟨pieces, delivered, ?_⟩
  rw [flat, List.drop_drop, show (data.checkpointFor offset).2 +
    (offset - (data.checkpointFor offset).2) = offset by omega]

end Content

/-- The characters that a JSON string may write as a backslash and a letter. -/
def shortEscapes : List (UInt8 × Char) :=
  [(34, '"'), (92, '\\'), (47, '/'), (98, '\x08'), (102, '\x0c'), (110, '\n'), (114, '\r'),
    (116, '\t')]

/-- The number that hexadecimal digits spell. -/
def hexUnit (digits : Bytes) : Option Nat :=
  (digits.mapM decodeHexNibble).map fun digits =>
    digits.foldl (fun value digit => value * 16 + digit) 0

/-- A JSON string: the bytes between its quotes and the characters that they stand for. -/
inductive JsonBody : Bytes → List Char → Prop
  | done : JsonBody [] []
  | plain {char : Char} {text chars} : char ≠ '"' → char ≠ '\\' → 32 ≤ char.toNat →
      JsonBody text chars → JsonBody (String.utf8EncodeChar char ++ text) (char :: chars)
  | short {escaped char text chars} : (escaped, char) ∈ shortEscapes →
      JsonBody text chars → JsonBody (92 :: escaped :: text) (char :: chars)
  | unicode {digits : Bytes} {char : Char} {text chars} : digits.length = 4 →
      hexUnit digits = some char.toNat →
      JsonBody text chars → JsonBody (92 :: 117 :: (digits ++ text)) (char :: chars)
  | pair {first second : Bytes} {high low : Nat} {char : Char} {text chars} :
      first.length = 4 → second.length = 4 → high < 1024 → low < 1024 →
      hexUnit first = some (0xD800 + high) → hexUnit second = some (0xDC00 + low) →
      char.toNat = 0x10000 + high * 1024 + low →
      JsonBody text chars →
      JsonBody (92 :: 117 :: (first ++ 92 :: 117 :: (second ++ text))) (char :: chars)

theorem utf8_ofList (chars : List Char) :
    utf8 (String.ofList chars) = chars.flatMap String.utf8EncodeChar := by
  simp [utf8, List.utf8Encode]

theorem utf8_ofList_cons (char : Char) (chars : List Char) :
    utf8 (String.ofList (char :: chars)) =
      String.utf8EncodeChar char ++ utf8 (String.ofList chars) := by
  rw [utf8_ofList, utf8_ofList, List.flatMap_cons]

theorem utf8EncodeChar_of_ascii {char : Char} (ascii : char.toNat < 128) :
    String.utf8EncodeChar char = [UInt8.ofNat char.toNat] := by
  rw [← utf8EncodeChar_ofNat ascii, Char.ofNat_toNat]

/-- No byte of a character beyond ASCII is ASCII. -/
theorem utf8EncodeChar_of_not_ascii {char : Char} (wide : 128 ≤ char.toNat) :
    String.utf8EncodeChar char ≠ [] ∧ ∀ byte ∈ String.utf8EncodeChar char, 128 ≤ byte.toNat := by
  have high {offset value : Nat} (large : 128 ≤ offset) (small : value + offset < 256) :
      128 ≤ (UInt8.ofNat (value + offset)).toNat := by
    rw [UInt8.toNat_ofNat', Nat.mod_eq_of_lt small]
    omega
  have bounded : char.val.toNat < 1114112 := by
    have := char.valid
    rcases this with low | ⟨_, high⟩ <;> omega
  rw [Char.toNat] at wide
  simp only [String.utf8EncodeChar]
  split_ifs with one two three
  · omega
  · simp only [ne_eq, reduceCtorEq, not_false_eq_true, true_and, List.forall_mem_cons,
      List.not_mem_nil, false_imp_iff, implies_true, and_true]
    exact ⟨high (by decide) (by omega), high (by decide) (by omega)⟩
  · simp only [ne_eq, reduceCtorEq, not_false_eq_true, true_and, List.forall_mem_cons,
      List.not_mem_nil, false_imp_iff, implies_true, and_true]
    exact ⟨high (by decide) (by omega), high (by decide) (by omega), high (by decide) (by omega)⟩
  · simp only [ne_eq, reduceCtorEq, not_false_eq_true, true_and, List.forall_mem_cons,
      List.not_mem_nil, false_imp_iff, implies_true, and_true]
    exact ⟨high (by decide) (by omega), high (by decide) (by omega), high (by decide) (by omega),
      high (by decide) (by omega)⟩

theorem base64Value_ascii {symbol : UInt8} (valued : (base64Value symbol).isSome = true) :
    symbol.toNat < 128 := by
  have all : ∀ code : Fin 256, (base64Value (UInt8.ofNat code.val)).isSome = true →
      code.val < 128 := by decide +kernel
  have := all ⟨symbol.toNat, symbol.toNat_lt⟩
  rw [UInt8.ofNat_toNat] at this
  exact this valued

theorem unescape_of_short {escaped : UInt8} {char : Char} (short : (escaped, char) ∈ shortEscapes)
    (rest : Bytes) :
    char.toNat < 128 ∧ unescape (escaped :: rest) = .ok (UInt8.ofNat char.toNat, rest) := by
  simp only [shortEscapes, List.mem_cons, Prod.mk.injEq, List.not_mem_nil, or_false] at short
  rcases short with ⟨rfl, rfl⟩ | ⟨rfl, rfl⟩ | ⟨rfl, rfl⟩ | ⟨rfl, rfl⟩ | ⟨rfl, rfl⟩ | ⟨rfl, rfl⟩ |
    ⟨rfl, rfl⟩ | ⟨rfl, rfl⟩ <;> exact ⟨by decide, rfl⟩

theorem unescape_of_unit {digits : Bytes} {value : Nat} (four : digits.length = 4)
    (unit : hexUnit digits = some value) (rest : Bytes) :
    unescape (117 :: (digits ++ rest)) =
      if value < 256 then .ok (UInt8.ofNat value, rest) else .error .invalid := by
  rw [unescape_unicode, if_neg (by rw [List.length_append]; omega), ← four, List.take_left,
    List.drop_left, hexByte]
  rw [hexUnit, Option.map_eq_some_iff] at unit
  obtain ⟨nibbles, found, rfl⟩ := unit
  rw [found]
  simp only
  split_ifs <;> rfl

namespace JsonBody

variable {text : Bytes} {chars : List Char}

/-- A string of ASCII characters spells them. -/
theorem spells (body : JsonBody text chars) (ascii : ∀ char ∈ chars, char.toNat < 128) :
    Spells text (utf8 (String.ofList chars)) [] := by
  induction body with
  | done => exact .done []
  | @plain char text chars _ other _ _ induction =>
      obtain ⟨small, ascii⟩ := List.forall_mem_cons.mp ascii
      rw [utf8_ofList_cons, utf8EncodeChar_of_ascii small]
      refine .plain (fun same => other ?_) (induction ascii)
      rw [← Char.ofNat_toNat char, ← Nat.mod_eq_of_lt (show char.toNat < 256 by omega),
        ← UInt8.toNat_ofNat', same]
      rfl
  | short escape _ induction =>
      obtain ⟨small, ascii⟩ := List.forall_mem_cons.mp ascii
      rw [utf8_ofList_cons, utf8EncodeChar_of_ascii small]
      exact .escape (unescape_of_short escape _).2 (induction ascii)
  | unicode four unit _ induction =>
      obtain ⟨small, ascii⟩ := List.forall_mem_cons.mp ascii
      rw [utf8_ofList_cons, utf8EncodeChar_of_ascii small]
      refine .escape ?_ (induction ascii)
      rw [unescape_of_unit four unit, if_pos (by omega)]
  | pair _ _ _ _ _ _ value _ _ =>
      have small := ascii _ List.mem_cons_self
      omega

/-- What a string spells without leaving ASCII is its characters. -/
theorem eq_of_spells (body : JsonBody text chars) {symbols : Bytes}
    (spells : Spells text symbols []) (ascii : ∀ symbol ∈ symbols, symbol.toNat < 128) :
    symbols = utf8 (String.ofList chars) := by
  induction body generalizing symbols with
  | done => exact spells.of_nil
  | @plain char text chars _ other _ _ induction =>
      rw [utf8_ofList_cons]
      by_cases small : char.toNat < 128
      · rw [utf8EncodeChar_of_ascii small] at spells ⊢
        have single : Spells ([UInt8.ofNat char.toNat] ++ text) [UInt8.ofNat char.toNat] text := by
          refine .of_plain (fun byte member => ?_) text
          rw [List.mem_singleton.mp member]
          intro same
          apply other
          rw [← Char.ofNat_toNat char, ← Nat.mod_eq_of_lt (show char.toNat < 256 by omega),
            ← UInt8.toNat_ofNat', same]
          rfl
        obtain ⟨later, rfl, behind⟩ := spells.split single
        rw [induction behind fun symbol member => ascii symbol (List.mem_append_right _ member)]
      · obtain ⟨some, wide⟩ := utf8EncodeChar_of_not_ascii (Nat.le_of_not_lt small)
        have raw := Spells.of_plain (fun byte member same => by
          have := wide byte member
          rw [same] at this
          exact absurd this (by decide)) text
        obtain ⟨later, rfl, _⟩ := spells.split raw
        obtain ⟨byte, member⟩ := List.exists_mem_of_ne_nil _ some
        have := wide byte member
        have := ascii byte (List.mem_append_left _ member)
        omega
  | short escape _ induction =>
      obtain ⟨small, unescaped⟩ := unescape_of_short escape _
      rw [utf8_ofList_cons, utf8EncodeChar_of_ascii small]
      cases spells with
      | plain wrong _ => exact absurd rfl wrong
      | escape read spells =>
          obtain ⟨rfl, rfl⟩ := Prod.mk.inj (Except.ok.inj (read.symm.trans unescaped))
          rw [induction spells fun symbol member => ascii symbol (List.mem_cons_of_mem _ member)]
          rfl
  | @unicode digits char text chars four unit _ induction =>
      cases spells with
      | plain wrong _ => exact absurd rfl wrong
      | escape read spells =>
          rw [unescape_of_unit four unit] at read
          split at read
          · next narrow =>
              obtain ⟨rfl, rfl⟩ := Prod.mk.inj (Except.ok.inj read)
              have small := ascii _ List.mem_cons_self
              rw [UInt8.toNat_ofNat', Nat.mod_eq_of_lt narrow] at small
              rw [utf8_ofList_cons, utf8EncodeChar_of_ascii small,
                induction spells fun symbol member => ascii symbol (List.mem_cons_of_mem _ member)]
              rfl
          · cases read
  | pair four _ _ _ unit _ _ _ _ =>
      cases spells with
      | plain wrong _ => exact absurd rfl wrong
      | escape read _ =>
          rw [unescape_of_unit four unit, if_neg (by omega)] at read
          cases read

/-- The data of a string are what its characters decode to. -/
theorem decodes_iff (body : JsonBody text chars) (label : String) (decoded : Bytes) :
    Decodes text decoded ↔ decodeB64 (String.ofList chars) label = .ok decoded := by
  simp only [decodeB64, Checked.bind_eq_ok, Checked.ensure_eq_ok, Checked.pure_eq_ok,
    Checked.context_eq_ok]
  constructor
  · rintro ⟨symbols, spells, found⟩
    obtain ⟨valued, _, _, encoded⟩ := base64Decode_eq_some found
    obtain rfl := body.eq_of_spells spells fun symbol member =>
      base64Value_ascii (valued symbol member)
    exact ⟨decoded, found, ⟨⟩, encoded, rfl⟩
  · rintro ⟨_, found, _, _, rfl⟩
    obtain ⟨valued, _⟩ := base64Decode_eq_some found
    refine ⟨_, body.spells fun char member => ?_, found⟩
    by_contra large
    obtain ⟨some, wide⟩ := utf8EncodeChar_of_not_ascii (Nat.le_of_not_lt large)
    obtain ⟨byte, inside⟩ := List.exists_mem_of_ne_nil _ some
    have small := base64Value_ascii (valued byte
      (utf8_ofList chars ▸ List.mem_flatMap.mpr ⟨char, member, inside⟩))
    have := wide byte inside
    omega

end JsonBody

section Content

variable {suite : HashSuite} {buffers : Bytes → Parts} {text : Bytes} {data : Base64Data}

/-- The checkpoints of a scan pass the checks of a cached stream, for every range of the data. -/
theorem fromCachedBase64_of_scan {decoded : Bytes} (scan : ScanOf text decoded data)
    {offset length : Nat} (within : offset + length ≤ decoded.length) :
    fromCachedBase64 text data.checkpoints data.len offset length = .ok data := by
  have consecutive : ∀ pair ∈ data.checkpoints.zip data.checkpoints.tail,
      pair.1.1 < pair.2.1 ∧ pair.1.2 < pair.2.2 := by
    have increasing := scan.increasing
    generalize data.checkpoints = marks at increasing
    induction marks with
    | nil => simp
    | cons mark marks induction =>
        obtain ⟨first, others⟩ := List.pairwise_cons.mp increasing
        cases marks with
        | nil => simp
        | cons next marks =>
            rw [List.tail_cons, List.zip_cons_cons]
            exact List.forall_mem_cons.mpr ⟨first next List.mem_cons_self, induction others⟩
  have inside : ∀ mark ∈ data.checkpoints, mark.1 ≤ text.length ∧ mark.2 ≤ data.len :=
    fun mark member => by
      obtain ⟨raw, few, _⟩ := scan.aligned mark member
      exact ⟨raw, by rw [scan.len_eq]; exact few⟩
  have whole : data = ⟨text, data.checkpoints, data.len⟩ := by
    rw [← scan.encoded_eq]
  simp only [fromCachedBase64, Checked.bind_eq_ok, Checked.ensure_eq_ok, Checked.pure_eq_ok]
  exact ⟨⟨⟩, ⟨scan.first, scan.few⟩, ⟨⟩, ⟨consecutive, inside⟩, ⟨⟩,
    by rw [scan.len_eq]; exact within, whole.symm⟩

/-- A JSON string is scanned exactly when its characters decode, in whatever parts its bytes are
read; the scan finds the length and the digests of the decoded bytes, and increasing checkpoints that
a cached stream accepts; and from then on every range of the decoded bytes is streamed. -/
theorem json_data_random_access (suite : HashSuite) {text : Bytes} {chars : List Char}
    (body : JsonBody text chars) (bounded : text.length ≤ maxUsize) (label : String)
    (buffers : Bytes → Parts) (whole : ∀ content, (buffers content).flatten = content) :
    ((∃ scanned, Base64Data.scan suite buffers text = .ok scanned) ↔
      ∃ decoded, decodeB64 (String.ofList chars) label = .ok decoded) ∧
    ∀ data digest256 digest384,
      Base64Data.scan suite buffers text = .ok (data, digest256, digest384) →
      ∃ decoded, decodeB64 (String.ofList chars) label = .ok decoded ∧
        data.len = decoded.length ∧
        digest256 = suite.sha256 [decoded] ∧ digest384 = suite.sha384 [decoded] ∧
        (data.checkpoints.Pairwise fun before after =>
          before.1 < after.1 ∧ before.2 < after.2) ∧
        data.checkpoints.length ≤ 4097 ∧
        ∀ offset length, offset + length ≤ decoded.length →
          fromCachedBase64 text data.checkpoints data.len offset length = .ok data ∧
          ∀ parts : Bytes → Parts, (∀ content, (parts content).flatten = content) →
            ∃ pieces, data.stream parts offset length = .ok pieces ∧
              pieces.flatten = (decoded.drop offset).take length := by
  rcases scan_eq suite (whole text) bounded with
    ⟨failure, failed, wrong⟩ | ⟨data, decoded, found, decodes, scan⟩
  · rw [failed]
    refine ⟨⟨fun ⟨_, other⟩ => (nomatch other), fun ⟨decoded, accepted⟩ => ?_⟩,
      fun _ _ _ other => nomatch other⟩
    exact absurd ((body.decodes_iff label decoded).mpr accepted) (wrong decoded)
  · have accepted := (body.decodes_iff label decoded).mp decodes
    rw [found]
    refine ⟨⟨fun _ => ⟨decoded, accepted⟩, fun _ => ⟨_, rfl⟩⟩, fun _ _ _ same => ?_⟩
    obtain ⟨rfl, rest⟩ := Prod.mk.inj (Except.ok.inj same)
    obtain ⟨rfl, rfl⟩ := Prod.mk.inj rest
    exact ⟨decoded, accepted, scan.len_eq, rfl, rfl, scan.increasing, scan.few,
      fun offset length within => ⟨fromCachedBase64_of_scan scan within,
        fun parts exact => stream_eq scan exact within⟩⟩

end Content

/-- A string that spells `SGVsbG8` with an escaped letter in the middle. -/
def escapedBody : Bytes := [83, 71, 92, 117, 48, 48, 53, 54, 115, 98, 71, 56]

theorem jsonBody_escapedBody : JsonBody escapedBody "SGVsbG8".toList :=
  have ascii (char : Char) (other : char ≠ '"' ∧ char ≠ '\\' ∧ 32 ≤ char.toNat) {text chars}
      (body : JsonBody text chars) := JsonBody.plain other.1 other.2.1 other.2.2 body
  ascii 'S' (by decide) <| ascii 'G' (by decide) <|
    @JsonBody.unicode [48, 48, 53, 54] 'V' _ _ rfl (by decide) <| ascii 's' (by decide) <|
    ascii 'b' (by decide) <| ascii 'G' (by decide) <| ascii '8' (by decide) .done

theorem json_data_random_access_escaped :
    ∃ scanned, Base64Data.scan sha2Suite (fun content => [content]) escapedBody = .ok scanned :=
  (json_data_random_access sha2Suite jsonBody_escapedBody (by decide) "data"
    (fun content => [content]) (by simp)).1.mpr ⟨[72, 101, 108, 108, 111], by decide⟩

end ArIoGateway
