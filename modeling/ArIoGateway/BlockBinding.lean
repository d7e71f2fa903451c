import ArIoGateway.BlockHeader

/-!
# Headers are bound by their signed segment

Every helper that appends to the segment writes either a length-prefixed payload or a word of a
known width, so the segment determines the covered fields, at every combination of fork heights.
-/

namespace ArIoGateway

open Framing Octets

/-- Two decoders accept and give one value. -/
def SameValue {α : Type} (left right : Checked α) : Prop :=
  ∃ value, left = .ok value ∧ right = .ok value

/-- Append a checked payload behind its length. -/
def appendPayload (source : Checked Bytes) (sizeBytes : Nat) : Append := fun output => do
  appendBytes output (← source) sizeBytes

/-- Append a checked payload as it is. -/
def appendRaw (source : Checked Bytes) : Append := fun output => do
  pure (output ++ (← source))

theorem sizeLimit_le (bytes : Nat) : sizeLimit bytes ≤ 256 ^ bytes := by
  unfold sizeLimit
  have base : 2 ^ (bytes * 8) = 256 ^ bytes := by
    rw [Nat.mul_comm, Nat.pow_mul]
  split
  · exact base.le
  · next wide =>
      have : 2 ^ 128 ≤ 2 ^ (bytes * 8) := Nat.pow_le_pow_right (by decide) (Nat.not_lt.mp wide)
      omega

theorem appendSize_eq_ok {output result : Bytes} {value bytes : Nat} :
    appendSize output value bytes = .ok result ↔
      (0 < bytes ∧ bytes ≤ 16) ∧ value < sizeLimit bytes ∧
        result = output ++ bigEndian bytes value := by
  simp only [appendSize, Checked.bind_eq_ok, Checked.ensure_eq_ok, Checked.pure_eq_ok]
  constructor
  · rintro ⟨_, width, _, bound, rfl⟩
    refine ⟨width, bound, ?_⟩
    have split : 16 = (16 - bytes) + bytes := by omega
    conv_lhs => rw [split]
    rw [show 16 - bytes + bytes - bytes = 16 - bytes by omega, drop_bigEndian]
  · rintro ⟨width, bound, rfl⟩
    refine ⟨(), width, (), bound, ?_⟩
    have split : 16 = (16 - bytes) + bytes := by omega
    conv_lhs => rw [split]
    rw [show 16 - bytes + bytes - bytes = 16 - bytes by omega, drop_bigEndian]

theorem appendBytes_eq_ok {output value result : Bytes} {sizeBytes : Nat} :
    appendBytes output value sizeBytes = .ok result ↔
      (0 < sizeBytes ∧ sizeBytes ≤ 16) ∧ value.length < sizeLimit sizeBytes ∧
        result = output ++ prefixed sizeBytes value := by
  simp only [appendBytes, Checked.bind_eq_ok, Checked.ensure_eq_ok, Checked.pure_eq_ok,
    appendSize_eq_ok]
  constructor
  · rintro ⟨_, bound, _, ⟨width, _, rfl⟩, rfl⟩
    exact ⟨width, bound, by simp [prefixed]⟩
  · rintro ⟨width, bound, rfl⟩
    exact ⟨(), bound, _, ⟨width, bound, rfl⟩, by simp [prefixed]⟩

theorem writes_appendPayload {source : Checked Bytes} {sizeBytes : Nat} {word : Bytes} :
    Writes (appendPayload source sizeBytes) word ↔
      ∃ payload, source = .ok payload ∧ (0 < sizeBytes ∧ sizeBytes ≤ 16) ∧
        payload.length < sizeLimit sizeBytes ∧ word = prefixed sizeBytes payload := by
  simp only [Writes, appendPayload, Checked.bind_eq_ok, appendBytes_eq_ok]
  constructor
  · intro writes
    obtain ⟨payload, accepted, width, bound, same⟩ := writes []
    exact ⟨payload, accepted, width, bound, by simpa using same⟩
  · rintro ⟨payload, accepted, width, bound, rfl⟩ buffer
    exact ⟨payload, accepted, width, bound, rfl⟩

theorem uniform_appendPayload (source : Checked Bytes) (sizeBytes : Nat) :
    Uniform (appendPayload source sizeBytes) := by
  intro buffer result done
  simp only [appendPayload, Checked.bind_eq_ok, appendBytes_eq_ok] at done
  obtain ⟨payload, accepted, width, bound, rfl⟩ := done
  exact ⟨_, writes_appendPayload.mpr ⟨payload, accepted, width, bound, rfl⟩, rfl⟩

theorem binds_appendPayload (left right : Checked Bytes) (sizeBytes : Nat) :
    Binds (appendPayload left sizeBytes) (appendPayload right sizeBytes)
      (SameValue left right) := by
  have form : ∀ (source : Checked Bytes) (word : Bytes),
      Writes (appendPayload source sizeBytes) word →
        ∃ payload, word = prefixed sizeBytes payload ∧ payload.length < 256 ^ sizeBytes := by
    intro source word writes
    obtain ⟨payload, _, _, bound, rfl⟩ := writes_appendPayload.mp writes
    exact ⟨payload, rfl, bound.trans_le (sizeLimit_le sizeBytes)⟩
  apply binds_of_prefixed (form left) (form right)
  intro payload writesLeft writesRight
  have bare : ∀ {source : Checked Bytes},
      Writes (appendPayload source sizeBytes) (prefixed sizeBytes payload) →
        source = .ok payload := by
    intro source writes
    obtain ⟨other, accepted, _, _, same⟩ := writes_appendPayload.mp writes
    have lengths : payload.length = other.length := by
      simpa [prefixed] using congrArg List.length same
    have payloads : payload = other := by
      rw [prefixed, prefixed, lengths] at same
      exact List.append_cancel_left same
    rw [payloads, accepted]
  exact ⟨payload, bare writesLeft, bare writesRight⟩

theorem writes_appendRaw {source : Checked Bytes} {word : Bytes} :
    Writes (appendRaw source) word ↔ source = .ok word := by
  simp only [Writes, appendRaw, Checked.bind_eq_ok, Checked.pure_eq_ok]
  constructor
  · intro writes
    obtain ⟨payload, accepted, same⟩ := writes []
    obtain rfl : payload = word := by simpa using same
    exact accepted
  · intro accepted buffer
    exact ⟨word, accepted, rfl⟩

theorem uniform_appendRaw (source : Checked Bytes) : Uniform (appendRaw source) := by
  intro buffer result done
  simp only [appendRaw, Checked.bind_eq_ok, Checked.pure_eq_ok] at done
  obtain ⟨payload, accepted, rfl⟩ := done
  exact ⟨payload, writes_appendRaw.mpr accepted, rfl⟩

theorem binds_appendRaw {left right : Checked Bytes} (width : Nat)
    (leftWidth : ∀ word, left = .ok word → word.length = width)
    (rightWidth : ∀ word, right = .ok word → word.length = width) :
    Binds (appendRaw left) (appendRaw right) (SameValue left right) := by
  apply binds_of_length width
  · exact fun word writes => leftWidth word (writes_appendRaw.mp writes)
  · exact fun word writes => rightWidth word (writes_appendRaw.mp writes)
  · exact fun word writesLeft writesRight =>
      ⟨word, writes_appendRaw.mp writesLeft, writes_appendRaw.mp writesRight⟩

/-- A payload field of two headers. -/
def payloadPair (left right : Checked Bytes) (sizeBytes : Nat) : Pair where
  left := appendPayload left sizeBytes
  right := appendPayload right sizeBytes
  agree := SameValue left right
  uniformLeft := uniform_appendPayload left sizeBytes
  uniformRight := uniform_appendPayload right sizeBytes
  binds := binds_appendPayload left right sizeBytes

/-- A base64url field of two headers. -/
def b64Pair (left right : String) (sizeBytes : Nat) (label : String) : Pair :=
  payloadPair (decodeB64 left label) (decodeB64 right label) sizeBytes

/-- The payload of an optional byte field. -/
def optionalB64 (value label : String) : Checked Bytes :=
  if value = "" then .ok [] else decodeB64 value label

theorem appendOptionalB64_eq (value : String) (sizeBytes : Nat) (label : String) :
    appendOptionalB64 value sizeBytes label =
      appendPayload (optionalB64 value label) sizeBytes := by
  funext output
  unfold appendOptionalB64 appendPayload optionalB64
  split <;> rfl

/-- An optional byte field of two headers. -/
def optionalB64Pair (left right : String) (sizeBytes : Nat) (label : String) : Pair where
  left := appendOptionalB64 left sizeBytes label
  right := appendOptionalB64 right sizeBytes label
  agree := SameValue (optionalB64 left label) (optionalB64 right label)
  uniformLeft := by
    rw [appendOptionalB64_eq]
    exact uniform_appendPayload _ _
  uniformRight := by
    rw [appendOptionalB64_eq]
    exact uniform_appendPayload _ _
  binds := by
    rw [appendOptionalB64_eq, appendOptionalB64_eq]
    exact binds_appendPayload _ _ _

theorem appendDecimal_eq (value : String) (sizeBytes : Nat) (label : String) :
    appendDecimal value sizeBytes label =
      appendPayload (minimalBytes <$> parseBiguint value label) sizeBytes := by
  funext output
  unfold appendDecimal appendPayload
  cases parseBiguint value label with
  | error message => rfl
  | ok number =>
      simp only [Checked.ok_bind, if_neg (minimalBytes_ne_nil number)]
      rfl

theorem sameValue_of_minimalBytes {left right : Checked Nat}
    (same : SameValue (minimalBytes <$> left) (minimalBytes <$> right)) :
    SameValue left right := by
  obtain ⟨bytes, leftSame, rightSame⟩ := same
  obtain ⟨leftNumber, leftOk, leftBytes⟩ := Checked.map_eq_ok.mp leftSame
  obtain ⟨rightNumber, rightOk, rightBytes⟩ := Checked.map_eq_ok.mp rightSame
  obtain rfl := minimalBytes_injective (leftBytes.trans rightBytes.symm)
  exact ⟨leftNumber, leftOk, rightOk⟩

theorem uniform_appendDecimal (value : String) (sizeBytes : Nat) (label : String) :
    Uniform (appendDecimal value sizeBytes label) := by
  rw [appendDecimal_eq]
  exact uniform_appendPayload _ _

theorem binds_appendDecimal (left right : String) (sizeBytes : Nat) (label : String) :
    Binds (appendDecimal left sizeBytes label) (appendDecimal right sizeBytes label)
      (SameValue (parseBiguint left label) (parseBiguint right label)) := by
  rw [appendDecimal_eq, appendDecimal_eq]
  exact (binds_appendPayload _ _ _).mono sameValue_of_minimalBytes

/-- A decimal field of two headers. -/
def decimalPair (left right : String) (sizeBytes : Nat) (label : String) : Pair where
  left := appendDecimal left sizeBytes label
  right := appendDecimal right sizeBytes label
  agree := SameValue (parseBiguint left label) (parseBiguint right label)
  uniformLeft := uniform_appendDecimal left sizeBytes label
  uniformRight := uniform_appendDecimal right sizeBytes label
  binds := binds_appendDecimal left right sizeBytes label

theorem eq_of_sameValue_decimalString {left right : Nat} {label : String}
    (same : SameValue (parseBiguint (decimalString left) label)
      (parseBiguint (decimalString right) label)) : left = right := by
  obtain ⟨value, leftSame, rightSame⟩ := same
  rw [parseBiguint_decimalString] at leftSame rightSame
  exact Except.ok.inj (leftSame.trans rightSame.symm)

/-- A machine-integer field of two headers. -/
def u64Pair (left right sizeBytes : Nat) : Pair where
  left := appendU64 left sizeBytes
  right := appendU64 right sizeBytes
  agree := left = right
  uniformLeft := uniform_appendDecimal _ _ _
  uniformRight := uniform_appendDecimal _ _ _
  binds := (binds_appendDecimal _ _ _ _).mono eq_of_sameValue_decimalString

/-- The value of an optional decimal field. -/
def optionalDecimal (value label : String) : Checked (Option Nat) :=
  if value = "" then .ok none else some <$> parseBiguint value label

/-- The payload of an optional decimal field. -/
def optionalDecimalBytes (value label : String) : Checked Bytes :=
  if value = "" then .ok [] else minimalBytes <$> parseBiguint value label

theorem appendOptionalDecimal_eq (value : String) (sizeBytes : Nat) (label : String) :
    appendOptionalDecimal value sizeBytes label =
      appendPayload (optionalDecimalBytes value label) sizeBytes := by
  funext output
  unfold appendOptionalDecimal optionalDecimalBytes
  rw [appendDecimal_eq]
  split <;> rfl

/-- The shortest bytes of a number are never empty, so an absent number differs from zero. -/
theorem sameValue_of_optionalDecimalBytes {left right label : String}
    (same : SameValue (optionalDecimalBytes left label) (optionalDecimalBytes right label)) :
    SameValue (optionalDecimal left label) (optionalDecimal right label) := by
  have absent : ∀ {value : String}, optionalDecimalBytes value label = .ok [] →
      optionalDecimal value label = .ok none := by
    intro value empty
    unfold optionalDecimalBytes at empty
    unfold optionalDecimal
    split at empty
    · next blank => rw [if_pos blank]
    · obtain ⟨number, _, none⟩ := Checked.map_eq_ok.mp empty
      exact absurd none (minimalBytes_ne_nil number)
  have present : ∀ {value : String} {number : Nat},
      optionalDecimalBytes value label = .ok (minimalBytes number) →
        optionalDecimal value label = .ok (some number) := by
    intro value number bytes
    unfold optionalDecimalBytes at bytes
    unfold optionalDecimal
    split at bytes
    · exact absurd (Except.ok.inj bytes).symm (minimalBytes_ne_nil number)
    · next nonblank =>
        obtain ⟨other, accepted, sameBytes⟩ := Checked.map_eq_ok.mp bytes
        rw [if_neg nonblank, accepted, minimalBytes_injective sameBytes]
        rfl
  obtain ⟨bytes, leftSame, rightSame⟩ := same
  by_cases blank : left = ""
  · obtain rfl : [] = bytes := by simpa [optionalDecimalBytes, blank] using leftSame
    exact ⟨none, absent leftSame, absent rightSame⟩
  · have parsed := leftSame
    rw [optionalDecimalBytes, if_neg blank, Checked.map_eq_ok] at parsed
    obtain ⟨number, _, rfl⟩ := parsed
    exact ⟨some number, present leftSame, present rightSame⟩

/-- An optional decimal field of two headers. -/
def optionalDecimalPair (left right : String) (sizeBytes : Nat) (label : String) : Pair where
  left := appendOptionalDecimal left sizeBytes label
  right := appendOptionalDecimal right sizeBytes label
  agree := SameValue (optionalDecimal left label) (optionalDecimal right label)
  uniformLeft := by
    rw [appendOptionalDecimal_eq]
    exact uniform_appendPayload _ _
  uniformRight := by
    rw [appendOptionalDecimal_eq]
    exact uniform_appendPayload _ _
  binds := by
    rw [appendOptionalDecimal_eq, appendOptionalDecimal_eq]
    exact (binds_appendPayload _ _ _).mono sameValue_of_optionalDecimalBytes

/-- A number in exactly `bytes` big-endian bytes. -/
def fixedDecimal (value : String) (bytes : Nat) (label : String) : Checked Bytes := do
  let encoded := minimalBytes (← parseBiguint value label)
  Checked.ensure (encoded.length ≤ bytes) s!"{label} exceeds fixed width"
  pure (List.replicate (bytes - encoded.length) 0 ++ encoded)

theorem fixedDecimal_eq_ok {value label : String} {bytes : Nat} {word : Bytes} :
    fixedDecimal value bytes label = .ok word ↔
      ∃ number, parseBiguint value label = .ok number ∧ (minimalBytes number).length ≤ bytes ∧
        word = List.replicate (bytes - (minimalBytes number).length) 0 ++ minimalBytes number := by
  simp only [fixedDecimal, Checked.bind_eq_ok, Checked.ensure_eq_ok, Checked.pure_eq_ok]
  constructor
  · rintro ⟨number, accepted, _, fits, rfl⟩
    exact ⟨number, accepted, fits, rfl⟩
  · rintro ⟨number, accepted, fits, rfl⟩
    exact ⟨number, accepted, (), fits, rfl⟩

theorem appendFixedDecimal_eq (value : String) (bytes : Nat) (label : String) :
    appendFixedDecimal value bytes label = appendRaw (fixedDecimal value bytes label) := by
  funext output
  unfold appendFixedDecimal appendRaw fixedDecimal
  cases parseBiguint value label with
  | error message => rfl
  | ok number =>
      simp only [Checked.ok_bind, Checked.ensure]
      split
      · simp [List.append_assoc]
      · rfl

theorem uniform_appendFixedDecimal (value : String) (bytes : Nat) (label : String) :
    Uniform (appendFixedDecimal value bytes label) := by
  rw [appendFixedDecimal_eq]
  exact uniform_appendRaw _

theorem binds_appendFixedDecimal (left right : String) (bytes : Nat) (label : String) :
    Binds (appendFixedDecimal left bytes label) (appendFixedDecimal right bytes label)
      (SameValue (parseBiguint left label) (parseBiguint right label)) := by
  have width : ∀ (value : String) (word : Bytes), fixedDecimal value bytes label = .ok word →
      word.length = bytes := by
    intro value word accepted
    obtain ⟨number, _, fits, rfl⟩ := fixedDecimal_eq_ok.mp accepted
    simp
    omega
  rw [appendFixedDecimal_eq, appendFixedDecimal_eq]
  refine (binds_appendRaw bytes (width left) (width right)).mono ?_
  rintro ⟨word, leftSame, rightSame⟩
  obtain ⟨leftNumber, leftOk, _, rfl⟩ := fixedDecimal_eq_ok.mp leftSame
  obtain ⟨rightNumber, rightOk, _, words⟩ := fixedDecimal_eq_ok.mp rightSame
  have numbers := congrArg ofBigEndian words
  rw [ofBigEndian_zeros_append, ofBigEndian_zeros_append, ofBigEndian_minimalBytes,
    ofBigEndian_minimalBytes] at numbers
  exact ⟨leftNumber, leftOk, numbers ▸ rightOk⟩

/-- A fixed-width decimal field of two headers. -/
def fixedDecimalPair (left right : String) (bytes : Nat) (label : String) : Pair where
  left := appendFixedDecimal left bytes label
  right := appendFixedDecimal right bytes label
  agree := SameValue (parseBiguint left label) (parseBiguint right label)
  uniformLeft := uniform_appendFixedDecimal left bytes label
  uniformRight := uniform_appendFixedDecimal right bytes label
  binds := binds_appendFixedDecimal left right bytes label

/-- A fixed-width machine-integer field of two headers. -/
def fixedU64Pair (left right bytes : Nat) : Pair where
  left := appendFixedU64 left bytes
  right := appendFixedU64 right bytes
  agree := left = right
  uniformLeft := uniform_appendFixedDecimal _ _ _
  uniformRight := uniform_appendFixedDecimal _ _ _
  binds := (binds_appendFixedDecimal _ _ _ _).mono eq_of_sameValue_decimalString

/-- Decoded bytes of one exact length. -/
def fixedB64 (value : String) (bytes : Nat) (label : String) : Checked Bytes := do
  let decoded ← decodeB64 value label
  Checked.ensure (decoded.length = bytes) s!"invalid {label} length"
  pure decoded

theorem fixedB64_eq_ok {value label : String} {bytes : Nat} {word : Bytes} :
    fixedB64 value bytes label = .ok word ↔
      decodeB64 value label = .ok word ∧ word.length = bytes := by
  simp only [fixedB64, Checked.bind_eq_ok, Checked.ensure_eq_ok, Checked.pure_eq_ok]
  constructor
  · rintro ⟨decoded, accepted, _, width, rfl⟩
    exact ⟨accepted, width⟩
  · rintro ⟨accepted, width⟩
    exact ⟨word, accepted, (), width, rfl⟩

theorem appendFixedB64_eq (value : String) (bytes : Nat) (label : String) :
    appendFixedB64 value bytes label = appendRaw (fixedB64 value bytes label) := by
  funext output
  unfold appendFixedB64 appendRaw fixedB64
  cases decodeB64 value label with
  | error message => rfl
  | ok decoded =>
      simp only [Checked.ok_bind, Checked.ensure]
      split <;> rfl

theorem uniform_appendFixedB64 (value : String) (bytes : Nat) (label : String) :
    Uniform (appendFixedB64 value bytes label) := by
  rw [appendFixedB64_eq]
  exact uniform_appendRaw _

theorem binds_appendFixedB64 (left right : String) (bytes : Nat) (label : String) :
    Binds (appendFixedB64 left bytes label) (appendFixedB64 right bytes label)
      (SameValue (decodeB64 left label) (decodeB64 right label)) := by
  rw [appendFixedB64_eq, appendFixedB64_eq]
  refine (binds_appendRaw bytes ?_ ?_).mono ?_
  · exact fun word accepted => (fixedB64_eq_ok.mp accepted).2
  · exact fun word accepted => (fixedB64_eq_ok.mp accepted).2
  · rintro ⟨word, leftSame, rightSame⟩
    exact ⟨word, (fixedB64_eq_ok.mp leftSame).1, (fixedB64_eq_ok.mp rightSame).1⟩

/-- A fixed-width base64url field of two headers. -/
def fixedB64Pair (left right : String) (bytes : Nat) (label : String) : Pair where
  left := appendFixedB64 left bytes label
  right := appendFixedB64 right bytes label
  agree := SameValue (decodeB64 left label) (decodeB64 right label)
  uniformLeft := uniform_appendFixedB64 left bytes label
  uniformRight := uniform_appendFixedB64 right bytes label
  binds := binds_appendFixedB64 left right bytes label

/-- A one-byte field of two headers. -/
def bytePair (left right : UInt8) : Pair where
  left := appendByte left
  right := appendByte right
  agree := left = right
  uniformLeft := uniform_appendRaw (.ok [left])
  uniformRight := uniform_appendRaw (.ok [right])
  binds := by
    refine (@binds_appendRaw (.ok [left]) (.ok [right]) 1 ?_ ?_).mono ?_
    · rintro word ⟨⟩
      rfl
    · rintro word ⟨⟩
      rfl
    · rintro ⟨word, ⟨⟩, rightSame⟩
      simpa using rightSame.symm

/-- Append a length prefix and then the elements in order. -/
def appendCounted (count sizeBytes : Nat) (elements : List Append) : Append := fun output => do
  run elements (← appendSize output count sizeBytes)

theorem appendCounted_eq (count sizeBytes : Nat) (elements : List Append) :
    appendCounted count sizeBytes elements =
      run ((fun output => appendSize output count sizeBytes) :: elements) := rfl

theorem writes_appendSize {count sizeBytes : Nat} {word : Bytes} :
    Writes (fun output => appendSize output count sizeBytes) word ↔
      (0 < sizeBytes ∧ sizeBytes ≤ 16) ∧ count < sizeLimit sizeBytes ∧
        word = bigEndian sizeBytes count := by
  simp only [Writes, appendSize_eq_ok, List.append_cancel_left_eq]
  exact ⟨fun writes => writes [], fun writes _ => writes⟩

theorem uniform_appendSize (count sizeBytes : Nat) :
    Uniform fun output => appendSize output count sizeBytes := by
  intro buffer result done
  obtain ⟨width, bound, rfl⟩ := appendSize_eq_ok.mp done
  exact ⟨_, writes_appendSize.mpr ⟨width, bound, rfl⟩, rfl⟩

theorem binds_appendSize (left right sizeBytes : Nat) :
    Binds (fun output => appendSize output left sizeBytes)
      (fun output => appendSize output right sizeBytes) (left = right) := by
  apply binds_of_length sizeBytes
  · intro word writes
    simp [(writes_appendSize.mp writes).2.2]
  · intro word writes
    simp [(writes_appendSize.mp writes).2.2]
  · intro word writesLeft writesRight
    obtain ⟨_, leftBound, leftWord⟩ := writes_appendSize.mp writesLeft
    obtain ⟨_, rightBound, rightWord⟩ := writes_appendSize.mp writesRight
    exact bigEndian_inj (leftBound.trans_le (sizeLimit_le _)) (rightBound.trans_le (sizeLimit_le _))
      (leftWord.symm.trans rightWord)

/-- A counted list binds its elements. -/
theorem binds_appendCounted {α : Type} (field : α → Append) {related : α → α → Prop}
    (uniform : ∀ value, Uniform (field value))
    (binds : ∀ left right, Binds (field left) (field right) (related left right))
    (lefts rights : List α) (sizeBytes : Nat) :
    Binds (appendCounted lefts.length sizeBytes (lefts.map field))
      (appendCounted rights.length sizeBytes (rights.map field))
      (List.Forall₂ related lefts rights) := by
  have allUniform : ∀ values : List α, Uniform (run (values.map field)) := by
    intro values
    apply uniform_run
    intro action member
    obtain ⟨value, _, rfl⟩ := List.mem_map.mp member
    exact uniform value
  exact (binds_run_cons (uniform_appendSize _ _) (uniform_appendSize _ _) (allUniform lefts)
    (allUniform rights) (binds_appendSize _ _ _)
    fun lengths => binds_lists uniform binds lengths).mono And.right

theorem uniform_appendCounted {elements : List Append} (count sizeBytes : Nat)
    (uniform : ∀ element ∈ elements, Uniform element) :
    Uniform (appendCounted count sizeBytes elements) := by
  rw [appendCounted_eq]
  apply uniform_run
  intro field member
  rcases List.mem_cons.mp member with rfl | member
  · exact uniform_appendSize count sizeBytes
  · exact uniform field member

theorem uniform_appendB64List (values : List String) (listSizeBytes elementSizeBytes : Nat)
    (label : String) : Uniform (appendB64List values listSizeBytes elementSizeBytes label) := by
  apply uniform_appendCounted
  intro element member
  obtain ⟨value, _, rfl⟩ := List.mem_map.mp member
  exact uniform_appendPayload _ _

theorem uniform_appendHashes (values : List String) (label : String) :
    Uniform (appendHashes values label) := by
  apply uniform_appendCounted
  intro element member
  obtain ⟨value, _, rfl⟩ := List.mem_map.mp member
  exact uniform_appendFixedB64 _ _ _

/-- A list of base64url fields of two headers, written last element first. -/
def b64ListPair (lefts rights : List String) (listSizeBytes elementSizeBytes : Nat)
    (label : String) : Pair where
  left := appendB64List lefts listSizeBytes elementSizeBytes label
  right := appendB64List rights listSizeBytes elementSizeBytes label
  agree := List.Forall₂ (fun left right => SameValue (decodeB64 left label) (decodeB64 right label))
    lefts rights
  uniformLeft := uniform_appendB64List lefts listSizeBytes elementSizeBytes label
  uniformRight := uniform_appendB64List rights listSizeBytes elementSizeBytes label
  binds := by
    have counted := binds_appendCounted (fun value => appendB64 value elementSizeBytes label)
      (fun _ => uniform_appendPayload _ _) (fun _ _ => binds_appendPayload _ _ _)
      lefts.reverse rights.reverse listSizeBytes
    rw [List.length_reverse, List.length_reverse] at counted
    exact counted.mono List.forall₂_reverse_iff.mp

/-- A list of hashes of two headers. -/
def hashesPair (lefts rights : List String) (label : String) : Pair where
  left := appendHashes lefts label
  right := appendHashes rights label
  agree := List.Forall₂ (fun left right => SameValue (decodeB64 left label) (decodeB64 right label))
    lefts rights
  uniformLeft := uniform_appendHashes lefts label
  uniformRight := uniform_appendHashes rights label
  binds := binds_appendCounted (fun value => appendFixedB64 value 32 label)
    (fun _ => uniform_appendFixedB64 _ _ _) (fun _ _ => binds_appendFixedB64 _ _ _ _) lefts rights 2

/-- The decoded bytes of a block tag. -/
def tagBytes (tag : JsonValue) : Checked Bytes := do
  decodeB64 (← Checked.context tag.asStr "invalid block tag") "block tag"

theorem appendTag_eq (tag : JsonValue) : appendTag tag = appendPayload (tagBytes tag) 2 := by
  funext output
  unfold appendTag appendPayload tagBytes
  cases tag.asStr <;> rfl

theorem uniform_appendTag (tag : JsonValue) : Uniform (appendTag tag) := by
  rw [appendTag_eq]
  exact uniform_appendPayload _ _

theorem binds_appendTag (left right : JsonValue) :
    Binds (appendTag left) (appendTag right) (SameValue (tagBytes left) (tagBytes right)) := by
  rw [appendTag_eq, appendTag_eq]
  exact binds_appendPayload _ _ _

theorem uniform_appendTags (tags : List JsonValue) : Uniform (appendTags tags) := by
  apply uniform_appendCounted
  intro element member
  obtain ⟨tag, _, rfl⟩ := List.mem_map.mp member
  exact uniform_appendTag tag

/-- The tag lists of two headers. -/
def tagsPair (lefts rights : List JsonValue) : Pair where
  left := appendTags lefts
  right := appendTags rights
  agree := List.Forall₂ (fun left right => SameValue (tagBytes left) (tagBytes right)) lefts rights
  uniformLeft := uniform_appendTags lefts
  uniformRight := uniform_appendTags rights
  binds := by
    have counted := binds_appendCounted appendTag uniform_appendTag binds_appendTag
      lefts.reverse rights.reverse 2
    rw [List.length_reverse, List.length_reverse] at counted
    exact counted.mono List.forall₂_reverse_iff.mp

/-- A byte field of the proof. -/
def proofBytes (proof : JsonValue) (name label : String) : Checked Bytes := do
  decodeB64 (← doubleSigningField proof name) label

/-- An integer field of the proof. -/
def proofNumber (proof : JsonValue) (name : String) : Checked Nat := do
  parseBiguint (← doubleSigningField proof name) name

/-- A byte field of the proof with one exact length. -/
def sizedProofBytes (proof : JsonValue) (name label : String) (size : Nat) (message : String) :
    Checked Bytes := do
  let decoded ← proofBytes proof name label
  Checked.ensure (decoded.length = size) message
  pure decoded

theorem sizedProofBytes_eq_ok {proof : JsonValue} {name label message : String} {size : Nat}
    {word : Bytes} :
    sizedProofBytes proof name label size message = .ok word ↔
      proofBytes proof name label = .ok word ∧ word.length = size := by
  simp only [sizedProofBytes, Checked.bind_eq_ok, Checked.ensure_eq_ok, Checked.pure_eq_ok]
  constructor
  · rintro ⟨decoded, accepted, _, width, rfl⟩
    exact ⟨accepted, width⟩
  · rintro ⟨accepted, width⟩
    exact ⟨word, accepted, (), width, rfl⟩

/-- Append a checked key or signature, behind its length from fork 2.9 on. -/
def appendSized (source : Checked Bytes) (lengthPrefixed : Bool) : Append :=
  if lengthPrefixed then appendPayload source 2 else appendRaw source

theorem appendSized_eq (source : Checked Bytes) (lengthPrefixed : Bool) :
    (fun output => do appendDoubleSigningBytes (← source) lengthPrefixed output) =
      appendSized source lengthPrefixed := by
  funext output
  unfold appendSized appendDoubleSigningBytes
  cases source <;> cases lengthPrefixed <;> rfl

theorem uniform_appendSized (source : Checked Bytes) (lengthPrefixed : Bool) :
    Uniform (appendSized source lengthPrefixed) := by
  unfold appendSized
  split
  · exact uniform_appendPayload _ _
  · exact uniform_appendRaw _

/-- Without a length prefix the size check of the field plays its part. -/
theorem binds_appendSized {left right : Checked Bytes} (width : Nat) (lengthPrefixed : Bool)
    (leftWidth : lengthPrefixed = false → ∀ word, left = .ok word → word.length = width)
    (rightWidth : lengthPrefixed = false → ∀ word, right = .ok word → word.length = width) :
    Binds (appendSized left lengthPrefixed) (appendSized right lengthPrefixed)
      (SameValue left right) := by
  unfold appendSized
  split
  · exact binds_appendPayload _ _ _
  · next bare =>
      have bare : lengthPrefixed = false := by simpa using bare
      exact binds_appendRaw width (leftWidth bare) (rightWidth bare)

/-- The fields of one signature of the proof. -/
def halfFields (proof : JsonValue) (signatureSize : Nat) (lengthPrefixed : Bool)
    (signature difficulty previousDifficulty preimage : String) : List Append :=
  [ appendSized (sizedProofBytes proof signature "double-signing signature" signatureSize
      "invalid double-signing signature length") lengthPrefixed,
    appendPayload (minimalBytes <$> proofNumber proof difficulty) 2,
    appendPayload (minimalBytes <$> proofNumber proof previousDifficulty) 2,
    appendRaw (sizedProofBytes proof preimage preimage 64 s!"invalid {preimage} length") ]

theorem appendProofDecimal_eq (proof : JsonValue) (name : String) :
    (fun output => do appendDecimal (← doubleSigningField proof name) 2 name output) =
      appendPayload (minimalBytes <$> proofNumber proof name) 2 := by
  funext output
  unfold proofNumber
  cases doubleSigningField proof name with
  | error message => rfl
  | ok text =>
      simp only [Checked.ok_bind]
      rw [appendDecimal_eq]

theorem appendProofPreimage_eq (proof : JsonValue) (name : String) :
    (fun output => do appendFixedB64 (← doubleSigningField proof name) 64 name output) =
      appendRaw (sizedProofBytes proof name name 64 s!"invalid {name} length") := by
  funext output
  unfold sizedProofBytes proofBytes
  cases doubleSigningField proof name with
  | error message => rfl
  | ok text =>
      simp only [Checked.ok_bind]
      rw [appendFixedB64_eq]
      rfl

theorem appendDoubleSigningHalf_eq (proof : JsonValue) (signatureSize : Nat)
    (lengthPrefixed : Bool) (signature difficulty previousDifficulty preimage : String) :
    appendDoubleSigningHalf proof signatureSize lengthPrefixed signature difficulty
        previousDifficulty preimage =
      run (halfFields proof signatureSize lengthPrefixed signature difficulty previousDifficulty
        preimage) := by
  funext output
  unfold halfFields
  rw [run_cons, ← appendProofDecimal_eq, ← appendProofDecimal_eq, ← appendProofPreimage_eq,
    ← appendSized_eq]
  simp only [appendDoubleSigningHalf, sizedProofBytes, proofBytes, run_cons_eq, run_nil_eq,
    bind_assoc, bind_pure, pure_bind]

theorem halfFields_uniform {proof : JsonValue} {signatureSize : Nat} {lengthPrefixed : Bool}
    {signature difficulty previousDifficulty preimage : String} :
    ∀ field ∈ halfFields proof signatureSize lengthPrefixed signature difficulty
      previousDifficulty preimage, Uniform field := by
  simp only [halfFields, List.forall_mem_cons]
  exact ⟨uniform_appendSized _ _, uniform_appendPayload _ _, uniform_appendPayload _ _,
    uniform_appendRaw _, by simp⟩

/-- One signature of two proofs, with its difficulties and preimage. -/
structure SameProofHalf (left right : JsonValue)
    (signature difficulty previousDifficulty preimage : String) : Prop where
  signature : SameValue (proofBytes left signature "double-signing signature")
    (proofBytes right signature "double-signing signature")
  difficulty : SameValue (proofNumber left difficulty) (proofNumber right difficulty)
  previousDifficulty : SameValue (proofNumber left previousDifficulty)
    (proofNumber right previousDifficulty)
  preimage : SameValue (proofBytes left preimage preimage) (proofBytes right preimage preimage)

theorem sameValue_of_sized {left right : JsonValue} {name label message : String} {size : Nat}
    (same : SameValue (sizedProofBytes left name label size message)
      (sizedProofBytes right name label size message)) :
    SameValue (proofBytes left name label) (proofBytes right name label) := by
  obtain ⟨word, leftSame, rightSame⟩ := same
  exact ⟨word, (sizedProofBytes_eq_ok.mp leftSame).1, (sizedProofBytes_eq_ok.mp rightSame).1⟩

theorem binds_halfFields (left right : JsonValue) (signatureSize : Nat) (lengthPrefixed : Bool)
    (signature difficulty previousDifficulty preimage : String) :
    Binds
      (run (halfFields left signatureSize lengthPrefixed signature difficulty previousDifficulty
        preimage))
      (run (halfFields right signatureSize lengthPrefixed signature difficulty previousDifficulty
        preimage))
      (SameProofHalf left right signature difficulty previousDifficulty preimage) := by
  have width : ∀ {proof : JsonValue} {name label message : String} {size : Nat} (word : Bytes),
      sizedProofBytes proof name label size message = .ok word → word.length = size :=
    fun _ accepted => (sizedProofBytes_eq_ok.mp accepted).2
  have pairs := binds_pairs
    [ { left := _, right := _, agree := _, uniformLeft := uniform_appendSized _ _,
        uniformRight := uniform_appendSized _ _,
        binds := @binds_appendSized (sizedProofBytes left signature
            "double-signing signature" signatureSize "invalid double-signing signature length")
          (sizedProofBytes right signature "double-signing signature" signatureSize
            "invalid double-signing signature length") signatureSize lengthPrefixed
          (fun _ => width) fun _ => width },
      payloadPair (minimalBytes <$> proofNumber left difficulty)
        (minimalBytes <$> proofNumber right difficulty) 2,
      payloadPair (minimalBytes <$> proofNumber left previousDifficulty)
        (minimalBytes <$> proofNumber right previousDifficulty) 2,
      { left := _, right := _, agree := _, uniformLeft := uniform_appendRaw _,
        uniformRight := uniform_appendRaw _,
        binds := @binds_appendRaw (sizedProofBytes left preimage preimage 64
            s!"invalid {preimage} length")
          (sizedProofBytes right preimage preimage 64 s!"invalid {preimage} length") 64
          width width } ]
  refine pairs.mono ?_
  simp only [List.forall_mem_cons, payloadPair]
  rintro ⟨sameSignature, sameDifficulty, samePrevious, samePreimage, _⟩
  exact ⟨sameValue_of_sized sameSignature, sameValue_of_minimalBytes sameDifficulty,
    sameValue_of_minimalBytes samePrevious, sameValue_of_sized samePreimage⟩

/-- The parts of a present proof that follow its key. -/
def proofFields (proof : JsonValue) (signatureSize : Nat) (lengthPrefixed : Bool) : List Append :=
  [ run (halfFields proof signatureSize lengthPrefixed "sig1" "cdiff1" "prev_cdiff1" "preimage1"),
    run (halfFields proof signatureSize lengthPrefixed "sig2" "cdiff2" "prev_cdiff2" "preimage2") ]

theorem uniform_proofFields (proof : JsonValue) (signatureSize : Nat) (lengthPrefixed : Bool) :
    Uniform (run (proofFields proof signatureSize lengthPrefixed)) := by
  apply uniform_run
  simp only [proofFields, List.forall_mem_cons]
  exact ⟨uniform_run halfFields_uniform, uniform_run halfFields_uniform, by simp⟩

/-- The serialized fields of two double-signing proofs; `null` and an object without fields are
both the absent proof. -/
def SameDoubleSigningProof (left right : JsonValue) : Prop :=
  (left.isNullOrEmpty = true ∧ right.isNullOrEmpty = true) ∨
    (left.isNullOrEmpty = false ∧ right.isNullOrEmpty = false ∧
      SameValue (proofBytes left "pub_key" "double-signing public key")
        (proofBytes right "pub_key" "double-signing public key") ∧
      SameProofHalf left right "sig1" "cdiff1" "prev_cdiff1" "preimage1" ∧
      SameProofHalf left right "sig2" "cdiff2" "prev_cdiff2" "preimage2")

/-- A present proof is a one byte, its key and two signatures of the size its key asks for. -/
theorem appendDoubleSigningProof_present {proof : JsonValue} {height : Nat} {buffer result : Bytes}
    (present : proof.isNullOrEmpty = false) :
    appendDoubleSigningProof proof height buffer = .ok result ↔
      ∃ key size, proofBytes proof "pub_key" "double-signing public key" = .ok key ∧
        doubleSigningSize key.length (decide (fork29Height ≤ height)) = .ok size ∧
        run (appendByte 1 :: appendSized (.ok key) (decide (fork29Height ≤ height)) ::
          proofFields proof size (decide (fork29Height ≤ height))) buffer = .ok result := by
  have tail : ∀ (size : Nat) (key : Bytes),
      run (appendByte 1 :: appendSized (.ok key) (decide (fork29Height ≤ height)) ::
          proofFields proof size (decide (fork29Height ≤ height))) buffer =
        (do
          let output ← appendDoubleSigningBytes key (decide (fork29Height ≤ height)) (buffer ++ [1])
          let output ← appendDoubleSigningHalf proof size (decide (fork29Height ≤ height))
            "sig1" "cdiff1" "prev_cdiff1" "preimage1" output
          appendDoubleSigningHalf proof size (decide (fork29Height ≤ height))
            "sig2" "cdiff2" "prev_cdiff2" "preimage2" output) := by
    intro size key
    rw [← appendSized_eq]
    simp only [proofFields, ← appendDoubleSigningHalf_eq, run_cons_eq, run_nil_eq, bind_pure,
      appendByte, pure_bind, Checked.ok_bind]
  simp only [tail, appendDoubleSigningProof, present, Bool.false_eq_true, if_false, proofBytes,
    Checked.bind_eq_ok]
  constructor
  · rintro ⟨text, field, key, decoded, size, sized, rest⟩
    exact ⟨key, size, ⟨text, field, decoded⟩, sized, rest⟩
  · rintro ⟨key, size, ⟨text, field, decoded⟩, sized, rest⟩
    exact ⟨text, field, key, decoded, size, sized, rest⟩

theorem appendDoubleSigningProof_absent {proof : JsonValue} (height : Nat)
    (absent : proof.isNullOrEmpty = true) :
    appendDoubleSigningProof proof height = appendByte 0 := by
  funext output
  simp [appendDoubleSigningProof, absent, appendByte]

theorem uniform_present (key : Bytes) (proof : JsonValue) (size : Nat) (lengthPrefixed : Bool) :
    Uniform (run (appendByte 1 :: appendSized (.ok key) lengthPrefixed ::
      proofFields proof size lengthPrefixed)) := by
  apply uniform_run
  simp only [proofFields, List.forall_mem_cons]
  exact ⟨uniform_appendRaw (.ok [1]), uniform_appendSized _ _, uniform_run halfFields_uniform,
    uniform_run halfFields_uniform, by simp⟩

theorem uniform_appendDoubleSigningProof (proof : JsonValue) (height : Nat) :
    Uniform (appendDoubleSigningProof proof height) := by
  cases kind : proof.isNullOrEmpty with
  | true =>
      rw [appendDoubleSigningProof_absent height kind]
      exact uniform_appendRaw (.ok [0])
  | false =>
      intro buffer result done
      obtain ⟨key, size, decoded, sized, rest⟩ := (appendDoubleSigningProof_present kind).mp done
      obtain ⟨word, writes, same⟩ := uniform_present key proof size _ buffer result rest
      refine ⟨word, fun other => ?_, same⟩
      exact (appendDoubleSigningProof_present kind).mpr ⟨key, size, decoded, sized, writes other⟩

/-- Before fork 2.9 only keys of 512 bytes are accepted. -/
theorem length_of_doubleSigningSize {keyLength size : Nat} {lengthPrefixed : Bool}
    (sized : doubleSigningSize keyLength lengthPrefixed = .ok size)
    (bare : lengthPrefixed = false) : keyLength = 512 := by
  subst bare
  by_contra other
  simp [doubleSigningSize, other] at sized

/-- The word of a present proof. -/
theorem writes_present {proof : JsonValue} {height : Nat} {word : Bytes}
    (present : proof.isNullOrEmpty = false)
    (writes : Writes (appendDoubleSigningProof proof height) word) :
    ∃ key size, proofBytes proof "pub_key" "double-signing public key" = .ok key ∧
      doubleSigningSize key.length (decide (fork29Height ≤ height)) = .ok size ∧
      Writes (run (appendByte 1 :: appendSized (.ok key) (decide (fork29Height ≤ height)) ::
        proofFields proof size (decide (fork29Height ≤ height)))) word := by
  obtain ⟨key, size, decoded, sized, rest⟩ :=
    (appendDoubleSigningProof_present present).mp (writes [])
  obtain ⟨other, writesOther, same⟩ := uniform_present key proof size _ [] _ rest
  obtain rfl : word = other := by simpa using same
  exact ⟨key, size, decoded, sized, writesOther⟩

theorem binds_appendByte (left right : UInt8) :
    Binds (appendByte left) (appendByte right) (left = right) :=
  (bytePair left right).binds

theorem binds_present {left right : JsonValue} {height : Nat}
    (leftPresent : left.isNullOrEmpty = false) (rightPresent : right.isNullOrEmpty = false) :
    Binds (appendDoubleSigningProof left height) (appendDoubleSigningProof right height)
      (SameDoubleSigningProof left right) := by
  intro leftWord rightWord leftRest rightRest writesLeft writesRight same
  obtain ⟨leftKey, leftSize, leftDecoded, leftSized, leftRun⟩ :=
    writes_present leftPresent writesLeft
  obtain ⟨rightKey, rightSize, rightDecoded, rightSized, rightRun⟩ :=
    writes_present rightPresent writesRight
  set lengthPrefixed := decide (fork29Height ≤ height)
  -- The key fixes the size of both signatures, which have no prefix before fork 2.9.
  have halves : leftKey = rightKey → Binds (run (proofFields left leftSize lengthPrefixed))
      (run (proofFields right rightSize lengthPrefixed)) (leftKey = rightKey ∧
        SameProofHalf left right "sig1" "cdiff1" "prev_cdiff1" "preimage1" ∧
        SameProofHalf left right "sig2" "cdiff2" "prev_cdiff2" "preimage2" ∧ True) := by
    rintro rfl
    obtain rfl : leftSize = rightSize := Except.ok.inj (leftSized.symm.trans rightSized)
    refine (binds_run_cons (uniform_run halfFields_uniform) (uniform_run halfFields_uniform)
      (uniform_run ?_) (uniform_run ?_) (binds_halfFields _ _ _ _ _ _ _ _) fun _ =>
      binds_run_cons (uniform_run halfFields_uniform) (uniform_run halfFields_uniform)
        (uniform_run (by simp)) (uniform_run (by simp)) (binds_halfFields _ _ _ _ _ _ _ _)
        fun _ => binds_nil).mono fun agreed => ⟨rfl, agreed⟩
    · simpa using uniform_run halfFields_uniform
    · simpa using uniform_run halfFields_uniform
  have key : Binds (appendSized (.ok leftKey) lengthPrefixed)
      (appendSized (.ok rightKey) lengthPrefixed) (leftKey = rightKey) := by
    refine (binds_appendSized 512 lengthPrefixed ?_ ?_).mono ?_
    · rintro bare word ⟨⟩
      exact length_of_doubleSigningSize leftSized bare
    · rintro bare word ⟨⟩
      exact length_of_doubleSigningSize rightSized bare
    · rintro ⟨word, ⟨⟩, ⟨⟩⟩
      rfl
  have uniformTail : ∀ (bytes : Bytes) (proof : JsonValue) (size : Nat),
      Uniform (run (appendSized (.ok bytes) lengthPrefixed ::
        proofFields proof size lengthPrefixed)) := by
    intro bytes proof size
    apply uniform_run
    simp only [proofFields, List.forall_mem_cons]
    exact ⟨uniform_appendSized _ _, uniform_run halfFields_uniform,
      uniform_run halfFields_uniform, by simp⟩
  have whole := binds_run_cons (uniform_appendRaw (.ok [1])) (uniform_appendRaw (.ok [1]))
    (uniformTail leftKey left leftSize) (uniformTail rightKey right rightSize)
    (binds_appendByte 1 1) fun _ =>
      binds_run_cons (uniform_appendSized _ _) (uniform_appendSized _ _)
        (uniform_proofFields left leftSize lengthPrefixed)
        (uniform_proofFields right rightSize lengthPrefixed) key halves
  obtain ⟨⟨_, keys, _, first, second, _⟩, rests⟩ := whole _ _ _ _ leftRun rightRun same
  exact ⟨.inr ⟨leftPresent, rightPresent, ⟨leftKey, leftDecoded, keys ▸ rightDecoded⟩,
    first, second⟩, rests⟩

/-- The first byte of the proof tells whether there is one. -/
theorem head_of_writes {proof : JsonValue} {height : Nat} {word : Bytes}
    (writes : Writes (appendDoubleSigningProof proof height) word) :
    word.head? = some (if proof.isNullOrEmpty then 0 else 1) := by
  cases kind : proof.isNullOrEmpty with
  | true =>
      rw [appendDoubleSigningProof_absent height kind] at writes
      obtain rfl := (@writes_appendRaw (.ok [0]) _).mp writes |> Except.ok.inj
      rfl
  | false =>
      obtain ⟨key, size, _, _, rest⟩ := writes_present kind writes
      obtain ⟨head, tail, writesHead, _, rfl⟩ := rest.of_run_cons (uniform_appendRaw (.ok [1]))
        (uniform_run (by
          simp only [proofFields, List.forall_mem_cons]
          exact ⟨uniform_appendSized _ _, uniform_run halfFields_uniform,
            uniform_run halfFields_uniform, by simp⟩))
      obtain rfl := (@writes_appendRaw (.ok [1]) _).mp writesHead |> Except.ok.inj
      rfl

/-- The double-signing proofs of two headers of one height. -/
def doubleSigningPair (left right : JsonValue) (height : Nat) : Pair where
  left := appendDoubleSigningProof left height
  right := appendDoubleSigningProof right height
  agree := SameDoubleSigningProof left right
  uniformLeft := uniform_appendDoubleSigningProof left height
  uniformRight := uniform_appendDoubleSigningProof right height
  binds := by
    cases leftKind : left.isNullOrEmpty <;> cases rightKind : right.isNullOrEmpty
    case false.false => exact binds_present leftKind rightKind
    case true.true =>
      rw [appendDoubleSigningProof_absent height leftKind,
        appendDoubleSigningProof_absent height rightKind]
      exact (binds_appendByte 0 0).mono fun _ => .inl ⟨leftKind, rightKind⟩
    all_goals
      intro leftWord rightWord leftRest rightRest writesLeft writesRight same
      have leftHead := head_of_writes writesLeft
      have rightHead := head_of_writes writesRight
      cases leftWord with
      | nil => simp at leftHead
      | cons leftByte leftWord =>
          cases rightWord with
          | nil => simp at rightHead
          | cons rightByte rightWord =>
              obtain ⟨rfl, _⟩ := List.cons.inj same
              simp [leftKind, rightKind] at leftHead rightHead
              simp [leftHead] at rightHead

/-! ## The covered fields -/

/-- Fields up to the height, for two headers with their stripped nonces. -/
def heightPairs (left right : BlockHeader) (leftNonce rightNonce : Bytes) : List Pair :=
  [ b64Pair left.previousBlock right.previousBlock 1 "previous block",
    u64Pair left.timestamp right.timestamp 1,
    payloadPair (.ok leftNonce) (.ok rightNonce) 2,
    u64Pair left.height right.height 1 ]

/-- Fields after the height, for two headers of one height. -/
def commonPairs (left right : BlockHeader) (height : Nat) : List Pair :=
  let leftInfo := left.nonceLimiterInfo
  let rightInfo := right.nonceLimiterInfo
  [ decimalPair left.diff right.diff 2 "block difficulty",
    decimalPair left.cumulativeDiff right.cumulativeDiff 2 "cumulative difficulty",
    u64Pair left.lastRetarget right.lastRetarget 1,
    b64Pair left.hash right.hash 1 "block hash",
    decimalPair left.blockSize right.blockSize 2 "block size",
    decimalPair left.weaveSize right.weaveSize 2 "block weave size",
    payloadPair (rewardAddress left.rewardAddr true) (rewardAddress right.rewardAddr true) 1,
    b64Pair left.txRoot right.txRoot 1 "block tx_root",
    b64Pair left.walletList right.walletList 1 "wallet list",
    b64Pair left.hashListMerkle right.hashListMerkle 1 "hash_list_merkle",
    decimalPair left.rewardPool right.rewardPool 1 "reward pool",
    decimalPair left.packing25Threshold right.packing25Threshold 1 "packing threshold",
    decimalPair left.strictDataSplitThreshold right.strictDataSplitThreshold 1
      "strict data split threshold",
    decimalPair left.usdToArRate.1 right.usdToArRate.1 1 "USD rate dividend",
    decimalPair left.usdToArRate.2 right.usdToArRate.2 1 "USD rate divisor",
    decimalPair left.scheduledUsdToArRate.1 right.scheduledUsdToArRate.1 1
      "scheduled USD rate dividend",
    decimalPair left.scheduledUsdToArRate.2 right.scheduledUsdToArRate.2 1
      "scheduled USD rate divisor",
    tagsPair left.tags right.tags,
    b64ListPair left.txs right.txs 2 1 "block transaction ID",
    decimalPair left.reward right.reward 1 "block reward",
    decimalPair left.recallByte right.recallByte 2 "recall byte",
    b64Pair left.hashPreimage right.hashPreimage 1 "hash preimage",
    optionalDecimalPair left.recallByte2 right.recallByte2 2 "second recall byte",
    b64Pair left.rewardKey right.rewardKey 2 "reward key",
    u64Pair left.partitionNumber right.partitionNumber 1,
    fixedB64Pair leftInfo.output rightInfo.output 32 "VDF output",
    fixedU64Pair leftInfo.globalStepNumber rightInfo.globalStepNumber 8,
    fixedB64Pair leftInfo.seed rightInfo.seed 48 "VDF seed",
    fixedB64Pair leftInfo.nextSeed rightInfo.nextSeed 48 "next VDF seed",
    fixedU64Pair leftInfo.zoneUpperBound rightInfo.zoneUpperBound 32,
    fixedU64Pair leftInfo.nextZoneUpperBound rightInfo.nextZoneUpperBound 32,
    b64Pair leftInfo.prevOutput rightInfo.prevOutput 1 "previous VDF output",
    hashesPair leftInfo.checkpoints rightInfo.checkpoints "VDF checkpoint",
    hashesPair leftInfo.lastStepCheckpoints rightInfo.lastStepCheckpoints "last VDF checkpoint",
    b64Pair left.previousSolutionHash right.previousSolutionHash 1 "previous solution hash",
    decimalPair left.pricePerGibMinute right.pricePerGibMinute 1 "price per GiB minute",
    decimalPair left.scheduledPricePerGibMinute right.scheduledPricePerGibMinute 1
      "scheduled price per GiB minute",
    fixedB64Pair left.rewardHistoryHash right.rewardHistoryHash 32 "reward history hash",
    decimalPair left.debtSupply right.debtSupply 1 "debt supply",
    fixedDecimalPair left.kryderPlusRateMultiplier right.kryderPlusRateMultiplier 3
      "Kryder+ rate multiplier",
    fixedDecimalPair left.kryderPlusRateMultiplierLatch right.kryderPlusRateMultiplierLatch 1
      "Kryder+ rate multiplier latch",
    fixedDecimalPair left.denomination right.denomination 3 "denomination",
    u64Pair left.redenominationHeight right.redenominationHeight 1,
    doubleSigningPair left.doubleSigningProof right.doubleSigningProof height,
    decimalPair left.previousCumulativeDiff right.previousCumulativeDiff 2
      "previous cumulative difficulty" ]

/-- Fields of fork 2.7, for two headers. -/
def fork27Pairs (left right : BlockHeader) : List Pair :=
  [ decimalPair left.merkleRebaseSupportThreshold right.merkleRebaseSupportThreshold 2
      "Merkle rebase threshold",
    b64Pair left.poa.dataPath right.poa.dataPath 3 "block data_path",
    b64Pair left.poa.txPath right.poa.txPath 3 "block tx_path",
    b64Pair left.poa2.dataPath right.poa2.dataPath 3 "second block data_path",
    b64Pair left.poa2.txPath right.poa2.txPath 3 "second block tx_path",
    fixedB64Pair left.chunkHash right.chunkHash 32 "chunk hash",
    optionalB64Pair left.chunk2Hash right.chunk2Hash 1 "second chunk hash",
    fixedB64Pair left.blockTimeHistoryHash right.blockTimeHistoryHash 32
      "block time history hash",
    decimalPair left.nonceLimiterInfo.vdfDifficulty right.nonceLimiterInfo.vdfDifficulty 1
      "VDF difficulty",
    decimalPair left.nonceLimiterInfo.nextVdfDifficulty right.nonceLimiterInfo.nextVdfDifficulty 1
      "next VDF difficulty" ]

/-- Fields of fork 2.8, for two headers. -/
def fork28Pairs (left right : BlockHeader) : List Pair :=
  [ bytePair left.packingDifficulty right.packingDifficulty,
    optionalB64Pair left.unpackedChunkHash right.unpackedChunkHash 1 "unpacked chunk hash",
    optionalB64Pair left.unpackedChunk2Hash right.unpackedChunk2Hash 1
      "second unpacked chunk hash" ]

/-- Fields of fork 2.9, for two headers. -/
def fork29Pairs (left right : BlockHeader) : List Pair :=
  [ bytePair left.replicaFormat right.replicaFormat ]

/-- Fields after the height at every gate. -/
def gatedPairs (left right : BlockHeader) (height : Nat) : List Pair :=
  commonPairs left right height ++
    (if fork27Height ≤ height then fork27Pairs left right else []) ++
    (if fork28Height ≤ height then fork28Pairs left right else []) ++
    (if fork29Height ≤ height then fork29Pairs left right else [])

/-- Two texts decode to the same bytes. -/
abbrev SameB64 (label left right : String) : Prop :=
  SameValue (decodeB64 left label) (decodeB64 right label)

/-- Two lists of texts decode to the same bytes, element by element. -/
abbrev SameB64List (label : String) : List String → List String → Prop :=
  List.Forall₂ (SameB64 label)

/-- Two texts are the same number. -/
abbrev SameNumber (label left right : String) : Prop :=
  SameValue (parseBiguint left label) (parseBiguint right label)

/-- Agreement of the fields that every height covers. -/
structure SameCommonFields (left right : BlockHeader) : Prop where
  diff : SameNumber "block difficulty" left.diff right.diff
  cumulativeDiff : SameNumber "cumulative difficulty" left.cumulativeDiff right.cumulativeDiff
  lastRetarget : left.lastRetarget = right.lastRetarget
  hash : SameB64 "block hash" left.hash right.hash
  blockSize : SameNumber "block size" left.blockSize right.blockSize
  weaveSize : SameNumber "block weave size" left.weaveSize right.weaveSize
  rewardAddr : SameValue (rewardAddress left.rewardAddr true) (rewardAddress right.rewardAddr true)
  txRoot : SameB64 "block tx_root" left.txRoot right.txRoot
  walletList : SameB64 "wallet list" left.walletList right.walletList
  hashListMerkle : SameB64 "hash_list_merkle" left.hashListMerkle right.hashListMerkle
  rewardPool : SameNumber "reward pool" left.rewardPool right.rewardPool
  packing25Threshold : SameNumber "packing threshold" left.packing25Threshold
    right.packing25Threshold
  strictDataSplitThreshold : SameNumber "strict data split threshold"
    left.strictDataSplitThreshold right.strictDataSplitThreshold
  usdDividend : SameNumber "USD rate dividend" left.usdToArRate.1 right.usdToArRate.1
  usdDivisor : SameNumber "USD rate divisor" left.usdToArRate.2 right.usdToArRate.2
  scheduledUsdDividend : SameNumber "scheduled USD rate dividend" left.scheduledUsdToArRate.1
    right.scheduledUsdToArRate.1
  scheduledUsdDivisor : SameNumber "scheduled USD rate divisor" left.scheduledUsdToArRate.2
    right.scheduledUsdToArRate.2
  tags : List.Forall₂ (fun left right => SameValue (tagBytes left) (tagBytes right))
    left.tags right.tags
  txs : SameB64List "block transaction ID" left.txs right.txs
  reward : SameNumber "block reward" left.reward right.reward
  recallByte : SameNumber "recall byte" left.recallByte right.recallByte
  hashPreimage : SameB64 "hash preimage" left.hashPreimage right.hashPreimage
  recallByte2 : SameValue (optionalDecimal left.recallByte2 "second recall byte")
    (optionalDecimal right.recallByte2 "second recall byte")
  rewardKey : SameB64 "reward key" left.rewardKey right.rewardKey
  partitionNumber : left.partitionNumber = right.partitionNumber
  vdfOutput : SameB64 "VDF output" left.nonceLimiterInfo.output right.nonceLimiterInfo.output
  globalStepNumber : left.nonceLimiterInfo.globalStepNumber =
    right.nonceLimiterInfo.globalStepNumber
  vdfSeed : SameB64 "VDF seed" left.nonceLimiterInfo.seed right.nonceLimiterInfo.seed
  nextVdfSeed : SameB64 "next VDF seed" left.nonceLimiterInfo.nextSeed
    right.nonceLimiterInfo.nextSeed
  zoneUpperBound : left.nonceLimiterInfo.zoneUpperBound = right.nonceLimiterInfo.zoneUpperBound
  nextZoneUpperBound : left.nonceLimiterInfo.nextZoneUpperBound =
    right.nonceLimiterInfo.nextZoneUpperBound
  prevVdfOutput : SameB64 "previous VDF output" left.nonceLimiterInfo.prevOutput
    right.nonceLimiterInfo.prevOutput
  checkpoints : SameB64List "VDF checkpoint" left.nonceLimiterInfo.checkpoints
    right.nonceLimiterInfo.checkpoints
  lastStepCheckpoints : SameB64List "last VDF checkpoint"
    left.nonceLimiterInfo.lastStepCheckpoints right.nonceLimiterInfo.lastStepCheckpoints
  previousSolutionHash : SameB64 "previous solution hash" left.previousSolutionHash
    right.previousSolutionHash
  pricePerGibMinute : SameNumber "price per GiB minute" left.pricePerGibMinute
    right.pricePerGibMinute
  scheduledPricePerGibMinute : SameNumber "scheduled price per GiB minute"
    left.scheduledPricePerGibMinute right.scheduledPricePerGibMinute
  rewardHistoryHash : SameB64 "reward history hash" left.rewardHistoryHash right.rewardHistoryHash
  debtSupply : SameNumber "debt supply" left.debtSupply right.debtSupply
  kryderPlusRateMultiplier : SameNumber "Kryder+ rate multiplier" left.kryderPlusRateMultiplier
    right.kryderPlusRateMultiplier
  kryderPlusRateMultiplierLatch : SameNumber "Kryder+ rate multiplier latch"
    left.kryderPlusRateMultiplierLatch right.kryderPlusRateMultiplierLatch
  denomination : SameNumber "denomination" left.denomination right.denomination
  redenominationHeight : left.redenominationHeight = right.redenominationHeight
  doubleSigningProof : SameDoubleSigningProof left.doubleSigningProof right.doubleSigningProof
  previousCumulativeDiff : SameNumber "previous cumulative difficulty"
    left.previousCumulativeDiff right.previousCumulativeDiff

/-- Agreement of the fields that fork 2.7 covers. -/
structure SameFork27Fields (left right : BlockHeader) : Prop where
  merkleRebaseSupportThreshold : SameNumber "Merkle rebase threshold"
    left.merkleRebaseSupportThreshold right.merkleRebaseSupportThreshold
  dataPath : SameB64 "block data_path" left.poa.dataPath right.poa.dataPath
  txPath : SameB64 "block tx_path" left.poa.txPath right.poa.txPath
  dataPath2 : SameB64 "second block data_path" left.poa2.dataPath right.poa2.dataPath
  txPath2 : SameB64 "second block tx_path" left.poa2.txPath right.poa2.txPath
  chunkHash : SameB64 "chunk hash" left.chunkHash right.chunkHash
  chunk2Hash : SameValue (optionalB64 left.chunk2Hash "second chunk hash")
    (optionalB64 right.chunk2Hash "second chunk hash")
  blockTimeHistoryHash : SameB64 "block time history hash" left.blockTimeHistoryHash
    right.blockTimeHistoryHash
  vdfDifficulty : SameNumber "VDF difficulty" left.nonceLimiterInfo.vdfDifficulty
    right.nonceLimiterInfo.vdfDifficulty
  nextVdfDifficulty : SameNumber "next VDF difficulty" left.nonceLimiterInfo.nextVdfDifficulty
    right.nonceLimiterInfo.nextVdfDifficulty

/-- Agreement of the fields that fork 2.8 covers. -/
structure SameFork28Fields (left right : BlockHeader) : Prop where
  packingDifficulty : left.packingDifficulty = right.packingDifficulty
  unpackedChunkHash : SameValue (optionalB64 left.unpackedChunkHash "unpacked chunk hash")
    (optionalB64 right.unpackedChunkHash "unpacked chunk hash")
  unpackedChunk2Hash : SameValue (optionalB64 left.unpackedChunk2Hash "second unpacked chunk hash")
    (optionalB64 right.unpackedChunk2Hash "second unpacked chunk hash")

/-- Agreement of two headers on every field that their signed segments cover. -/
structure SameCoveredFields (left right : BlockHeader) : Prop where
  previousBlock : SameB64 "previous block" left.previousBlock right.previousBlock
  timestamp : left.timestamp = right.timestamp
  nonce : SameValue (headerNonce left) (headerNonce right)
  height : left.height = right.height
  common : SameCommonFields left right
  fork27 : fork27Height ≤ left.height → SameFork27Fields left right
  fork28 : fork28Height ≤ left.height → SameFork28Fields left right
  fork29 : fork29Height ≤ left.height → left.replicaFormat = right.replicaFormat

theorem sameCommonFields_of_pairs {left right : BlockHeader} {height : Nat}
    (agreed : ∀ pair ∈ commonPairs left right height, pair.agree) :
    SameCommonFields left right := by
  simp only [commonPairs, List.forall_mem_cons] at agreed
  obtain ⟨diff, cumulativeDiff, lastRetarget, hash, blockSize, weaveSize, rewardAddr, txRoot,
    walletList, hashListMerkle, rewardPool, packing, strict, usdDividend, usdDivisor,
    scheduledDividend, scheduledDivisor, tags, txs, reward, recallByte, hashPreimage, recallByte2,
    rewardKey, partitionNumber, vdfOutput, globalStep, vdfSeed, nextVdfSeed, zone, nextZone,
    prevOutput, checkpoints, lastCheckpoints, previousSolution, price, scheduledPrice,
    rewardHistory, debtSupply, kryder, kryderLatch, denomination, redenomination, doubleSigning,
    previousCumulative, _⟩ := agreed
  exact ⟨diff, cumulativeDiff, lastRetarget, hash, blockSize, weaveSize, rewardAddr, txRoot,
    walletList, hashListMerkle, rewardPool, packing, strict, usdDividend, usdDivisor,
    scheduledDividend, scheduledDivisor, tags, txs, reward, recallByte, hashPreimage, recallByte2,
    rewardKey, partitionNumber, vdfOutput, globalStep, vdfSeed, nextVdfSeed, zone, nextZone,
    prevOutput, checkpoints, lastCheckpoints, previousSolution, price, scheduledPrice,
    rewardHistory, debtSupply, kryder, kryderLatch, denomination, redenomination, doubleSigning,
    previousCumulative⟩

theorem sameFork27Fields_of_pairs {left right : BlockHeader}
    (agreed : ∀ pair ∈ fork27Pairs left right, pair.agree) : SameFork27Fields left right := by
  simp only [fork27Pairs, List.forall_mem_cons] at agreed
  obtain ⟨threshold, dataPath, txPath, dataPath2, txPath2, chunkHash, chunk2Hash, timeHistory,
    vdf, nextVdf, _⟩ := agreed
  exact ⟨threshold, dataPath, txPath, dataPath2, txPath2, chunkHash, chunk2Hash, timeHistory,
    vdf, nextVdf⟩

theorem sameFork28Fields_of_pairs {left right : BlockHeader}
    (agreed : ∀ pair ∈ fork28Pairs left right, pair.agree) : SameFork28Fields left right := by
  simp only [fork28Pairs, List.forall_mem_cons] at agreed
  obtain ⟨packing, unpacked, unpacked2, _⟩ := agreed
  exact ⟨packing, unpacked, unpacked2⟩

theorem segmentFields_left (left right : BlockHeader) (leftNonce rightNonce : Bytes) :
    segmentFields left leftNonce =
      (heightPairs left right leftNonce rightNonce ++
        gatedPairs left right left.height).map Pair.left := by
  simp only [segmentFields, gatedPairs, List.map_append, apply_ite (List.map Pair.left),
    List.append_assoc]
  rfl

theorem segmentFields_right (left right : BlockHeader) (leftNonce rightNonce : Bytes) :
    segmentFields right rightNonce =
      (heightPairs left right leftNonce rightNonce ++
        gatedPairs left right right.height).map Pair.right := by
  simp only [segmentFields, gatedPairs, List.map_append, apply_ite (List.map Pair.right),
    List.append_assoc]
  rfl

theorem height_of_heightPairs {left right : BlockHeader} {leftNonce rightNonce : Bytes}
    (agreed : ∀ pair ∈ heightPairs left right leftNonce rightNonce, pair.agree) :
    SameB64 "previous block" left.previousBlock right.previousBlock ∧
      left.timestamp = right.timestamp ∧ leftNonce = rightNonce ∧ left.height = right.height := by
  simp only [heightPairs, List.forall_mem_cons] at agreed
  obtain ⟨previous, timestamp, ⟨nonce, ⟨⟩, ⟨⟩⟩, height, _⟩ := agreed
  exact ⟨previous, timestamp, rfl, height⟩

/-- The whole sequence binds every covered field: the height comes before every gated field. -/
theorem binds_segmentFields (left right : BlockHeader) (leftNonce rightNonce : Bytes) :
    Binds (run (segmentFields left leftNonce)) (run (segmentFields right rightNonce))
      ((∀ pair ∈ heightPairs left right leftNonce rightNonce, pair.agree) ∧
        ∀ pair ∈ gatedPairs left right left.height, pair.agree) := by
  rw [segmentFields_left left right leftNonce rightNonce,
    segmentFields_right left right leftNonce rightNonce, List.map_append, List.map_append]
  refine binds_run_append (uniform_lefts _) (uniform_rights _) (uniform_lefts _)
    (uniform_rights _) (binds_pairs _) fun agreed => ?_
  rw [← (height_of_heightPairs agreed).2.2.2]
  exact binds_pairs _

theorem uniform_segmentFields (block : BlockHeader) (nonce : Bytes) :
    Uniform (run (segmentFields block nonce)) := by
  rw [segmentFields_left block block nonce nonce]
  exact uniform_lefts _

theorem forall_mem_of_gate {condition : Prop} [Decidable condition] {pairs : List Pair}
    (agreed : ∀ pair ∈ (if condition then pairs else []), pair.agree) (gate : condition) :
    ∀ pair ∈ pairs, pair.agree := by
  simpa only [if_pos gate] using agreed

/-- Equal signed segments come from headers that agree on every covered field. -/
theorem sameCoveredFields_of_segments {left right : BlockHeader} {segment : Bytes}
    (leftDone : signedSegment left = .ok segment) (rightDone : signedSegment right = .ok segment) :
    SameCoveredFields left right := by
  obtain ⟨leftNonce, leftStripped, leftRun⟩ := Checked.bind_eq_ok.mp leftDone
  obtain ⟨rightNonce, rightStripped, rightRun⟩ := Checked.bind_eq_ok.mp rightDone
  obtain ⟨first, gated⟩ := (binds_segmentFields left right leftNonce rightNonce).of_outputs
    (uniform_segmentFields left leftNonce) (uniform_segmentFields right rightNonce) leftRun rightRun
  obtain ⟨previousBlock, timestamp, nonce, height⟩ := height_of_heightPairs first
  simp only [gatedPairs, List.forall_mem_append] at gated
  obtain ⟨⟨⟨common, fork27⟩, fork28⟩, fork29⟩ := gated
  exact
    { previousBlock, timestamp, height
      nonce := ⟨leftNonce, leftStripped, nonce ▸ rightStripped⟩
      common := sameCommonFields_of_pairs common
      fork27 := fun gate => sameFork27Fields_of_pairs (forall_mem_of_gate fork27 gate)
      fork28 := fun gate => sameFork28Fields_of_pairs (forall_mem_of_gate fork28 gate)
      fork29 := fun gate => forall_mem_of_gate fork29 gate _ List.mem_cons_self }

/-- An accepted empty payload comes from the empty text. -/
theorem eq_empty_of_decodeB64_nil {value label : String}
    (accepted : decodeB64 value label = .ok []) : value = "" := by
  have canonical := base64Encode_of_decodeB64 accepted
  exact utf8_injective (canonical.symm.trans (by decide))

/-- Canonical base64url text is determined by its bytes. -/
theorem eq_of_sameB64 {label left right : String} (same : SameB64 label left right) :
    left = right := by
  obtain ⟨bytes, leftSame, rightSame⟩ := same
  exact utf8_injective
    ((base64Encode_of_decodeB64 leftSame).symm.trans (base64Encode_of_decodeB64 rightSame))

/-- Equal reward addresses are the same text, up to `unclaimed` standing for the empty one. -/
theorem rewardAddr_of_sameValue {left right : String}
    (same : SameValue (rewardAddress left true) (rewardAddress right true)) :
    left = right ∨ (left = "unclaimed" ∧ right = "") ∨ (left = "" ∧ right = "unclaimed") := by
  unfold rewardAddress at same
  by_cases leftUnclaimed : left = "unclaimed" <;> by_cases rightUnclaimed : right = "unclaimed"
  · exact .inl (leftUnclaimed.trans rightUnclaimed.symm)
  · rw [if_pos leftUnclaimed, if_neg rightUnclaimed] at same
    obtain ⟨bytes, ⟨⟩, rightSame⟩ := same
    exact .inr (.inl ⟨leftUnclaimed, eq_empty_of_decodeB64_nil rightSame⟩)
  · rw [if_neg leftUnclaimed, if_pos rightUnclaimed] at same
    obtain ⟨bytes, leftSame, ⟨⟩⟩ := same
    exact .inr (.inr ⟨eq_empty_of_decodeB64_nil leftSame, rightUnclaimed⟩)
  · rw [if_neg leftUnclaimed, if_neg rightUnclaimed] at same
    exact .inl (eq_of_sameB64 same)

/-- The message that the signed hash of a header hashes. -/
def signedMessages (block : BlockHeader) : List Bytes :=
  (signedSegment block).toOption.toList

/-- The message that the identifier of a header hashes. -/
def identifierMessages (suite : HashSuite) (block : BlockHeader) : List Bytes :=
  match post26SignedHash suite block, decodeB64 block.signature "block signature" with
  | .ok signedHash, .ok signature => [signedHash.val ++ signature]
  | _, _ => []

/-- An identifier of fork 2.6 hashes the hash of the segment and the signature. -/
theorem blockIndepHash_eq_ok {suite : HashSuite}
    {earlier : BlockHeader → Checked (FixedBytes 48)} {block : BlockHeader} {id : FixedBytes 48}
    (gate : fork26Height ≤ block.height) :
    blockIndepHash suite earlier block = .ok id ↔
      ∃ segment signature, signedSegment block = .ok segment ∧
        decodeB64 block.signature "block signature" = .ok signature ∧
        suite.digest384 ((suite.digest256 segment).val ++ signature) = id := by
  simp only [blockIndepHash, if_pos gate, post26SignedHash, HashSuite.sha256, HashSuite.sha384,
    Checked.bind_eq_ok, Checked.pure_eq_ok, List.flatten_cons, List.flatten_nil, List.append_nil]
  constructor
  · rintro ⟨_, ⟨segment, done, rfl⟩, signature, decoded, rfl⟩
    exact ⟨segment, signature, done, decoded, rfl⟩
  · rintro ⟨segment, signature, done, decoded, rfl⟩
    exact ⟨_, ⟨segment, done, rfl⟩, signature, decoded, rfl⟩

theorem mem_identifierMessages {suite : HashSuite} {block : BlockHeader}
    {segment signature : Bytes} (done : signedSegment block = .ok segment)
    (decoded : decodeB64 block.signature "block signature" = .ok signature) :
    (suite.digest256 segment).val ++ signature ∈ identifierMessages suite block := by
  have hashed : post26SignedHash suite block = .ok (suite.digest256 segment) := by
    simp [post26SignedHash, done, HashSuite.sha256]
  simp [identifierMessages, hashed, decoded]

/-- Headers with one identifier agree on every covered field, unless the hashes they really
compute collide. -/
theorem sameCoveredFields_of_indepHash {suite : HashSuite}
    {earlier : BlockHeader → Checked (FixedBytes 48)} {left right : BlockHeader}
    {id : FixedBytes 48} (leftGate : fork26Height ≤ left.height)
    (rightGate : fork26Height ≤ right.height)
    (free256 : Collision.Free suite.digest256 (signedMessages left ++ signedMessages right))
    (free384 : Collision.Free suite.digest384
      (identifierMessages suite left ++ identifierMessages suite right))
    (leftId : blockIndepHash suite earlier left = .ok id)
    (rightId : blockIndepHash suite earlier right = .ok id) : SameCoveredFields left right := by
  obtain ⟨leftSegment, leftSignature, leftDone, leftDecoded, rfl⟩ :=
    (blockIndepHash_eq_ok leftGate).mp leftId
  obtain ⟨rightSegment, rightSignature, rightDone, rightDecoded, same⟩ :=
    (blockIndepHash_eq_ok rightGate).mp rightId
  have messages := free384.eq
    (List.mem_append_left _ (mem_identifierMessages leftDone leftDecoded))
    (List.mem_append_right _ (mem_identifierMessages rightDone rightDecoded)) same.symm
  have digests := (List.append_inj messages (by
    rw [(suite.digest256 leftSegment).property, (suite.digest256 rightSegment).property])).1
  have segments := free256.eq
    (List.mem_append_left _ (by simp [signedMessages, leftDone, Except.toOption]))
    (List.mem_append_right _ (by simp [signedMessages, rightDone, Except.toOption]))
    (Subtype.ext digests)
  exact sameCoveredFields_of_segments leftDone (segments ▸ rightDone)

/-- What acceptance of a header says about its height and identifier. -/
theorem verifyBlockHeader_eq_ok {suite : HashSuite}
    {earlier : BlockHeader → Checked (FixedBytes 48)} {block : BlockHeader}
    {entry : BlockIndexEntry} {height : Nat} {transactionId : Option String}
    (accepted : verifyBlockHeader suite earlier block entry height transactionId = .ok ()) :
    block.height = height ∧ ∃ id, decodeFixed 48 entry.hash "trusted block hash" = .ok id ∧
      blockIndepHash suite earlier block = .ok id := by
  simp only [verifyBlockHeader, Checked.bind_eq_ok, Checked.ensure_eq_ok] at accepted
  obtain ⟨_, sameHeight, id, trusted, _, _, _, _, actual, hashed, _, rfl, _⟩ := accepted
  exact ⟨sameHeight, actual, trusted, hashed⟩

/-- Equal signed segments determine every covered field, with `unclaimed` and an absent proof as
the only identifications.  So two headers accepted for one known block from fork 2.6 on agree on
every covered field. -/
theorem signed_segment_binding (suite : HashSuite)
    (earlier : BlockHeader → Checked (FixedBytes 48)) (left right : BlockHeader) :
    (∀ segment, signedSegment left = .ok segment → signedSegment right = .ok segment →
      SameCoveredFields left right ∧
        (left.rewardAddr = right.rewardAddr ∨
          (left.rewardAddr = "unclaimed" ∧ right.rewardAddr = "") ∨
          (left.rewardAddr = "" ∧ right.rewardAddr = "unclaimed"))) ∧
    (∀ entry height leftId rightId, fork26Height ≤ height →
      Collision.Free suite.digest256 (signedMessages left ++ signedMessages right) →
      Collision.Free suite.digest384
        (identifierMessages suite left ++ identifierMessages suite right) →
      verifyBlockHeader suite earlier left entry height leftId = .ok () →
      verifyBlockHeader suite earlier right entry height rightId = .ok () →
      SameCoveredFields left right) := by
  constructor
  · intro segment leftDone rightDone
    have same := sameCoveredFields_of_segments leftDone rightDone
    exact ⟨same, rewardAddr_of_sameValue same.common.rewardAddr⟩
  · intro entry height leftId rightId gate free256 free384 leftAccepted rightAccepted
    obtain ⟨rfl, id, trusted, leftHashed⟩ := verifyBlockHeader_eq_ok leftAccepted
    obtain ⟨sameHeight, otherId, otherTrusted, rightHashed⟩ := verifyBlockHeader_eq_ok rightAccepted
    obtain rfl : id = otherId := Except.ok.inj (trusted.symm.trans otherTrusted)
    exact sameCoveredFields_of_indepHash gate (sameHeight ▸ gate) free256 free384 leftHashed
      rightHashed

/-- The same header with its fields spelled otherwise. -/
def respelledHeader : BlockHeader :=
  { sampleHeader with
    nonce := "AAAD"
    diff := "007"
    rewardAddr := ""
    doubleSigningProof := .object [] }

/-- The index entry of both headers. -/
def sampleEntry : BlockIndexEntry where
  txRoot := zeroText 43
  weaveSize := "524288"
  hash := sampleHeader.indepHash

theorem signed_segment_binding_respelled :
    (SameCoveredFields sampleHeader respelledHeader ∧
      (sampleHeader.rewardAddr = respelledHeader.rewardAddr ∨
        (sampleHeader.rewardAddr = "unclaimed" ∧ respelledHeader.rewardAddr = "") ∨
        (sampleHeader.rewardAddr = "" ∧ respelledHeader.rewardAddr = "unclaimed"))) ∧
    SameCoveredFields sampleHeader respelledHeader := by
  obtain ⟨segment, leftDone⟩ := Checked.exists_of_isOk (signedSegment sampleHeader)
    (by decide)
  have rightDone : signedSegment respelledHeader = .ok segment :=
    Eq.trans (by decide +kernel) leftDone
  have sameSigned : signedMessages respelledHeader = signedMessages sampleHeader := by
    rw [signedMessages, signedMessages, leftDone, rightDone]
  have sameIdentifier : identifierMessages sha2Suite respelledHeader =
      identifierMessages sha2Suite sampleHeader := by
    simp only [identifierMessages, post26SignedHash, leftDone, rightDone]
    rfl
  have binding := signed_segment_binding sha2Suite (fun _ => .error "earlier fork") sampleHeader
    respelledHeader
  refine ⟨binding.1 segment leftDone rightDone,
    binding.2 sampleEntry fork29Height (some (zeroText 43)) none (by decide) ?_ ?_
      (by decide +kernel) (by decide +kernel)⟩
  · rw [sameSigned, signedMessages, leftDone]
    exact (Collision.free_singleton _ _).append_self
  · rw [sameIdentifier, identifierMessages, post26SignedHash, leftDone]
    exact (Collision.free_singleton _ _).append_self

end ArIoGateway
