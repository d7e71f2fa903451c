import ArIoGateway.Foundation.Checked
import ArIoGateway.Foundation.Octets

/-!
# Text encodings of header and transaction fields

Byte fields travel as canonical base64url text and integers as decimal text.  Rust strings are
modelled by `String`; the decoders read their UTF-8 bytes.
-/

namespace ArIoGateway

open Octets

/-- The UTF-8 bytes of a string, `str::as_bytes`. -/
def utf8 (text : String) : Bytes := text.toUTF8.data.toList

theorem utf8_injective : Function.Injective utf8 := by
  intro left right same
  apply String.toByteArray_inj.mp
  apply ByteArray.ext
  exact Array.toList_inj.mp same

theorem utf8_append (left right : String) : utf8 (left ++ right) = utf8 left ++ utf8 right := by
  simp [utf8]

/-- Bytes as an array of `width` bytes, `try_into`. -/
def toFixed (width : Nat) (bytes : Bytes) : Checked (FixedBytes width) :=
  if fits : bytes.length = width then .ok ⟨bytes, fits⟩ else .error "could not convert slice"

@[simp] theorem toFixed_eq_ok {width : Nat} {bytes : Bytes} {fixed : FixedBytes width} :
    toFixed width bytes = .ok fixed ↔ bytes = fixed.val := by
  unfold toFixed
  split
  case isTrue fits =>
      rw [Except.ok.injEq]
      exact Subtype.ext_iff
  case isFalse short =>
      simp only [reduceCtorEq, false_iff]
      rintro rfl
      exact short fixed.property

/-- The six bits that a base64url symbol stands for. -/
def base64Value (symbol : UInt8) : Option Nat :=
  let code := symbol.toNat
  if 65 ≤ code ∧ code ≤ 90 then some (code - 65)
  else if 97 ≤ code ∧ code ≤ 122 then some (code - 71)
  else if 48 ≤ code ∧ code ≤ 57 then some (code + 4)
  else if code = 45 then some 62
  else if code = 95 then some 63
  else none

/-- The base64url symbol of six bits. -/
def base64Symbol (value : Nat) : UInt8 :=
  if value < 26 then UInt8.ofNat (value + 65)
  else if value < 52 then UInt8.ofNat (value + 71)
  else if value < 62 then UInt8.ofNat (value - 4)
  else if value = 62 then 45
  else 95

/-- `URL_SAFE_NO_PAD.encode`. -/
def base64Encode : Bytes → Bytes
  | first :: second :: third :: rest =>
      let bits := first.toNat * 65536 + second.toNat * 256 + third.toNat
      base64Symbol (bits / 262144) :: base64Symbol (bits / 4096 % 64) ::
        base64Symbol (bits / 64 % 64) :: base64Symbol (bits % 64) :: base64Encode rest
  | [first, second] =>
      let bits := first.toNat * 65536 + second.toNat * 256
      [base64Symbol (bits / 262144), base64Symbol (bits / 4096 % 64), base64Symbol (bits / 64 % 64)]
  | [first] =>
      let bits := first.toNat * 65536
      [base64Symbol (bits / 262144), base64Symbol (bits / 4096 % 64)]
  | [] => []

/-- `URL_SAFE_NO_PAD.decode`, which rejects foreign symbols, a lone last symbol and nonzero
trailing bits. -/
def base64Decode : Bytes → Option Bytes
  | first :: second :: third :: fourth :: rest => do
      let bits := (← base64Value first) * 262144 + (← base64Value second) * 4096 +
        (← base64Value third) * 64 + (← base64Value fourth)
      let tail ← base64Decode rest
      some (UInt8.ofNat (bits / 65536) :: UInt8.ofNat (bits / 256 % 256) ::
        UInt8.ofNat (bits % 256) :: tail)
  | [first, second, third] => do
      let bits := (← base64Value first) * 262144 + (← base64Value second) * 4096 +
        (← base64Value third) * 64
      if bits % 256 = 0 then
        some [UInt8.ofNat (bits / 65536), UInt8.ofNat (bits / 256 % 256)]
      else none
  | [first, second] => do
      let bits := (← base64Value first) * 262144 + (← base64Value second) * 4096
      if bits % 65536 = 0 then some [UInt8.ofNat (bits / 65536)] else none
  | [_] => none
  | [] => some []

/-- Decode base64url text that is its own canonical encoding. -/
def decodeB64 (value label : String) : Checked Bytes := do
  let decoded ← Checked.context (base64Decode (utf8 value)) s!"invalid base64url {label}"
  Checked.ensure (base64Encode decoded = utf8 value) s!"non-canonical base64url {label}"
  pure decoded

/-- Decode base64url text into an array of `width` bytes. -/
def decodeFixed (width : Nat) (value label : String) : Checked (FixedBytes width) := do
  let decoded ← decodeB64 value label
  if fits : decoded.length = width then pure ⟨decoded, fits⟩
  else .error s!"invalid {label} length: {decoded.length}"

/-- Only one text decodes to given bytes. -/
theorem base64Encode_of_decodeB64 {value label : String} {decoded : Bytes}
    (accepted : decodeB64 value label = .ok decoded) : base64Encode decoded = utf8 value := by
  simp only [decodeB64, Checked.bind_eq_ok, Checked.ensure_eq_ok, Checked.pure_eq_ok] at accepted
  obtain ⟨bytes, _, _, canonical, rfl⟩ := accepted
  exact canonical

/-- The label only names the field in an error. -/
theorem decodeB64_label {value label other : String} {decoded : Bytes}
    (accepted : decodeB64 value label = .ok decoded) : decodeB64 value other = .ok decoded := by
  simpa [decodeB64] using accepted

theorem decodeFixed_eq_ok {width : Nat} {value label : String} {decoded : FixedBytes width} :
    decodeFixed width value label = .ok decoded ↔ decodeB64 value label = .ok decoded.val := by
  rw [decodeFixed, Checked.bind_eq_ok]
  constructor
  · rintro ⟨bytes, accepted, fits⟩
    split at fits
    · obtain rfl := Checked.pure_eq_ok.mp fits
      exact accepted
    · simp at fits
  · intro accepted
    exact ⟨decoded.val, accepted, by simp [decoded.property]⟩

/-- Whether a byte is an ASCII decimal digit. -/
def isAsciiDigit (byte : UInt8) : Bool := 48 ≤ byte.toNat ∧ byte.toNat ≤ 57

/-- Read an unsigned integer of any size from decimal digits. -/
def parseBiguint (value label : String) : Checked Nat := do
  Checked.ensure (utf8 value ≠ [] ∧ (utf8 value).all isAsciiDigit = true)
    s!"invalid {label}: {value}"
  pure (ofDecimal (utf8 value))

/-- Read a `u128` as `str::parse` does, with an optional plus sign. -/
def parseU128 (value label : String) : Checked Nat := do
  let digits := match utf8 value with
    | 43 :: rest => rest
    | digits => digits
  Checked.ensure (digits ≠ [] ∧ digits.all isAsciiDigit = true ∧ ofDecimal digits < 2 ^ 128)
    s!"invalid {label}: {value}"
  pure (ofDecimal digits)

/-- A decimal number that fits 64 bits without a sign bit, `parse::<u64>`. -/
def parseU64 (text : String) : Option Nat :=
  let digits := match utf8 text with
    | 43 :: digits => digits
    | digits => digits
  if digits ≠ [] ∧ digits.all isAsciiDigit = true ∧ ofDecimal digits < 2 ^ 64 then
    some (ofDecimal digits)
  else none

/-- A decimal number that fits 64 bits, `parse::<i64>`. -/
def parseI64 (text : String) : Option Int :=
  let (negative, digits) :=
    match utf8 text with
    | 45 :: digits => (true, digits)
    | 43 :: digits => (false, digits)
    | digits => (false, digits)
  let value : Int := if negative then -(ofDecimal digits : Int) else ofDecimal digits
  if digits ≠ [] ∧ digits.all isAsciiDigit = true ∧ -2 ^ 63 ≤ value ∧ value < 2 ^ 63 then some value
  else none

/-- The digits of a nonnegative integer without sign and leading zeros. -/
def canonicalUnsigned (value label : String) : Checked String := do
  let symbols := value.toList
  let negative := symbols.head? = some '-'
  let digits := match symbols with
    | '+' :: rest => rest
    | '-' :: rest => rest
    | digits => digits
  Checked.ensure (digits ≠ [] ∧ digits.all Char.isDigit = true) s!"invalid {label}"
  let number := digits.dropWhile (· = '0')
  Checked.ensure (¬negative ∨ number = []) s!"negative {label}"
  pure (if number = [] then "0" else String.ofList number)

/-- The decimal text of a number, `to_string`. -/
def decimalString (value : Nat) : String :=
  String.ofList ((decimal value).map fun digit => Char.ofNat digit.toNat)

theorem utf8EncodeChar_ofNat {code : Nat} (ascii : code < 128) :
    String.utf8EncodeChar (Char.ofNat code) = [UInt8.ofNat code] := by
  have all : ∀ code : Fin 128,
      String.utf8EncodeChar (Char.ofNat code.val) = [UInt8.ofNat code.val] := by decide
  exact all ⟨code, ascii⟩

theorem utf8_ofList_ascii (bytes : Bytes) (ascii : ∀ byte ∈ bytes, byte.toNat < 128) :
    utf8 (String.ofList (bytes.map fun byte => Char.ofNat byte.toNat)) = bytes := by
  have encoded : utf8 (String.ofList (bytes.map fun byte => Char.ofNat byte.toNat)) =
      bytes.flatMap fun byte => String.utf8EncodeChar (Char.ofNat byte.toNat) := by
    simp [utf8, List.utf8Encode, List.flatMap_map]
  rw [encoded]
  clear encoded
  induction bytes with
  | nil => rfl
  | cons byte bytes induction =>
      rw [List.flatMap_cons, utf8EncodeChar_ofNat (ascii byte List.mem_cons_self),
        induction fun other member => ascii other (List.mem_cons_of_mem _ member)]
      simp

theorem isAsciiDigit_of_mem_decimal {value : Nat} {byte : UInt8} (member : byte ∈ decimal value) :
    isAsciiDigit byte = true := by
  unfold decimal at member
  split at member
  · obtain rfl := List.mem_singleton.mp member
    decide
  · simp only [List.mem_reverse, List.mem_map] at member
    obtain ⟨digit, inDigits, rfl⟩ := member
    have bound : digit < 10 := Nat.digits_lt_base (by decide) inDigits
    have small : (48 + digit) % 256 = 48 + digit := Nat.mod_eq_of_lt (by omega)
    simp [isAsciiDigit, small]
    omega

@[simp] theorem utf8_decimalString (value : Nat) : utf8 (decimalString value) = decimal value := by
  apply utf8_ofList_ascii
  intro byte member
  have digit := isAsciiDigit_of_mem_decimal member
  simp only [isAsciiDigit, decide_eq_true_eq] at digit
  omega

theorem decimalString_injective : Function.Injective decimalString := by
  intro left right same
  apply decimal_injective
  rw [← utf8_decimalString, same, utf8_decimalString]

@[simp] theorem parseBiguint_decimalString (value : Nat) (label : String) :
    parseBiguint (decimalString value) label = .ok value := by
  have digits : (decimal value).all isAsciiDigit = true :=
    List.all_eq_true.mpr fun _ member => isAsciiDigit_of_mem_decimal member
  simp [parseBiguint, digits, decimal_ne_nil]

theorem parseU128_lt {value label : String} {number : Nat}
    (accepted : parseU128 value label = .ok number) : number < 2 ^ 128 := by
  simp only [parseU128, Checked.bind_eq_ok, Checked.ensure_eq_ok, Checked.pure_eq_ok] at accepted
  obtain ⟨_, ⟨_, _, bound⟩, rfl⟩ := accepted
  exact bound

/-- The text of base64url-encoded bytes. -/
def base64Text (bytes : Bytes) : String :=
  String.ofList ((base64Encode bytes).map fun byte => Char.ofNat byte.toNat)

theorem base64Value_base64Symbol {value : Nat} (small : value < 64) :
    base64Value (base64Symbol value) = some value := by
  have all : ∀ value : Fin 64, base64Value (base64Symbol value.val) = some value.val := by decide
  exact all ⟨value, small⟩

theorem base64Symbol_lt (value : Nat) : (base64Symbol value).toNat < 128 := by
  unfold base64Symbol
  split_ifs <;> simp <;> omega

theorem sextets (bits : Nat) :
    bits / 262144 * 262144 + bits / 4096 % 64 * 4096 + bits / 64 % 64 * 64 + bits % 64 = bits := by
  omega

section Groups

variable {first second third fourth : UInt8} {a b c d bits : Nat}

/-- Four symbols are three bytes. -/
theorem base64Decode_four (rest : Bytes) (firstValue : base64Value first = some a)
    (secondValue : base64Value second = some b) (thirdValue : base64Value third = some c)
    (fourthValue : base64Value fourth = some d)
    (total : a * 262144 + b * 4096 + c * 64 + d = bits) :
    base64Decode (first :: second :: third :: fourth :: rest) =
      (base64Decode rest).map fun tail => UInt8.ofNat (bits / 65536) ::
        UInt8.ofNat (bits / 256 % 256) :: UInt8.ofNat (bits % 256) :: tail := by
  rw [base64Decode.eq_def]
  simp only
  rw [firstValue, secondValue, thirdValue, fourthValue, Option.bind_eq_bind, Option.bind_some,
    Option.bind_some, Option.bind_some, Option.bind_some, total]
  cases base64Decode rest <;> rfl

/-- Three last symbols are two bytes. -/
theorem base64Decode_three (firstValue : base64Value first = some a)
    (secondValue : base64Value second = some b) (thirdValue : base64Value third = some c)
    (total : a * 262144 + b * 4096 + c * 64 = bits) :
    base64Decode [first, second, third] =
      if bits % 256 = 0 then some [UInt8.ofNat (bits / 65536), UInt8.ofNat (bits / 256 % 256)]
      else none := by
  rw [base64Decode.eq_def]
  simp only
  rw [firstValue, secondValue, thirdValue, Option.bind_eq_bind, Option.bind_some,
    Option.bind_some, Option.bind_some, total]

/-- Two last symbols are one byte. -/
theorem base64Decode_two (firstValue : base64Value first = some a)
    (secondValue : base64Value second = some b) (total : a * 262144 + b * 4096 = bits) :
    base64Decode [first, second] =
      if bits % 65536 = 0 then some [UInt8.ofNat (bits / 65536)] else none := by
  rw [base64Decode.eq_def]
  simp only
  rw [firstValue, secondValue, Option.bind_eq_bind, Option.bind_some, Option.bind_some, total]

end Groups

/-- What is encoded is decoded. -/
theorem base64Decode_base64Encode (bytes : Bytes) :
    base64Decode (base64Encode bytes) = some bytes := by
  induction bytes using base64Encode.induct with
  | case1 first second third rest induction =>
      have firstBound := first.toNat_lt
      have secondBound := second.toNat_lt
      have thirdBound := third.toNat_lt
      obtain ⟨bits, total⟩ :
          ∃ bits, first.toNat * 65536 + second.toNat * 256 + third.toNat = bits := ⟨_, rfl⟩
      have small : bits / 262144 < 64 := by omega
      have high : bits / 65536 = first.toNat := by omega
      have middle : bits / 256 % 256 = second.toNat := by omega
      have low : bits % 256 = third.toNat := by omega
      simp only [base64Encode, total]
      rw [base64Decode_four _ (base64Value_base64Symbol small)
          (base64Value_base64Symbol (Nat.mod_lt _ (by decide)))
          (base64Value_base64Symbol (Nat.mod_lt _ (by decide)))
          (base64Value_base64Symbol (Nat.mod_lt _ (by decide))) (sextets bits),
        induction, high, middle, low, Option.map_some, UInt8.ofNat_toNat, UInt8.ofNat_toNat,
        UInt8.ofNat_toNat]
  | case2 first second =>
      have firstBound := first.toNat_lt
      have secondBound := second.toNat_lt
      obtain ⟨bits, total⟩ : ∃ bits, first.toNat * 65536 + second.toNat * 256 = bits := ⟨_, rfl⟩
      have small : bits / 262144 < 64 := by omega
      have high : bits / 65536 = first.toNat := by omega
      have middle : bits / 256 % 256 = second.toNat := by omega
      have clear : bits % 256 = 0 := by omega
      have last : bits % 64 = 0 := by omega
      have whole := sextets bits
      rw [last, Nat.add_zero] at whole
      simp only [base64Encode, total]
      rw [base64Decode_three (base64Value_base64Symbol small)
          (base64Value_base64Symbol (Nat.mod_lt _ (by decide)))
          (base64Value_base64Symbol (Nat.mod_lt _ (by decide))) whole,
        if_pos clear, high, middle, UInt8.ofNat_toNat, UInt8.ofNat_toNat]
  | case3 first =>
      have firstBound := first.toNat_lt
      obtain ⟨bits, total⟩ : ∃ bits, first.toNat * 65536 = bits := ⟨_, rfl⟩
      have small : bits / 262144 < 64 := by omega
      have high : bits / 65536 = first.toNat := by omega
      have clear : bits % 65536 = 0 := by omega
      have third : bits / 64 % 64 = 0 := by omega
      have last : bits % 64 = 0 := by omega
      have whole := sextets bits
      rw [third, last, Nat.zero_mul, Nat.add_zero] at whole
      simp only [base64Encode, total]
      rw [base64Decode_two (base64Value_base64Symbol small)
          (base64Value_base64Symbol (Nat.mod_lt _ (by decide))) whole,
        if_pos clear, high, UInt8.ofNat_toNat]
  | case4 => rfl

theorem length_base64Encode (bytes : Bytes) :
    (base64Encode bytes).length = (bytes.length * 4 + 2) / 3 := by
  induction bytes using base64Encode.induct with
  | case1 first second third rest induction =>
      simp only [base64Encode, List.length_cons, induction]
      omega
  | case2 first second => simp [base64Encode]
  | case3 first => simp [base64Encode]
  | case4 => rfl

/-- Only symbols are written. -/
theorem mem_base64Encode {bytes : Bytes} {byte : UInt8} (member : byte ∈ base64Encode bytes) :
    ∃ value, byte = base64Symbol value := by
  induction bytes using base64Encode.induct with
  | case1 first second third rest induction =>
      simp only [base64Encode, List.mem_cons] at member
      rcases member with symbol | symbol | symbol | symbol | later
      · exact ⟨_, symbol⟩
      · exact ⟨_, symbol⟩
      · exact ⟨_, symbol⟩
      · exact ⟨_, symbol⟩
      · exact induction later
  | case2 first second =>
      simp only [base64Encode, List.mem_cons, List.not_mem_nil, or_false] at member
      rcases member with symbol | symbol | symbol <;> exact ⟨_, symbol⟩
  | case3 first =>
      simp only [base64Encode, List.mem_cons, List.not_mem_nil, or_false] at member
      rcases member with symbol | symbol <;> exact ⟨_, symbol⟩
  | case4 => cases member

theorem ascii_base64Encode (bytes : Bytes) : ∀ byte ∈ base64Encode bytes, byte.toNat < 128 := by
  intro byte member
  obtain ⟨value, rfl⟩ := mem_base64Encode member
  exact base64Symbol_lt value

@[simp] theorem utf8_base64Text (bytes : Bytes) : utf8 (base64Text bytes) = base64Encode bytes :=
  utf8_ofList_ascii _ (ascii_base64Encode bytes)

@[simp] theorem decodeB64_base64Text (bytes : Bytes) (label : String) :
    decodeB64 (base64Text bytes) label = .ok bytes := by
  simp [decodeB64, base64Decode_base64Encode]

@[simp] theorem decodeFixed_base64Text {width : Nat} (bytes : FixedBytes width) (label : String) :
    decodeFixed width (base64Text bytes.val) label = .ok bytes :=
  decodeFixed_eq_ok.mpr (decodeB64_base64Text _ _)

/-- A parsed JSON value, `serde_json::Value`.  Numbers keep their text. -/
inductive JsonValue where
  | null
  | bool (value : Bool)
  | number (text : String)
  | string (text : String)
  | array (items : List JsonValue)
  | object (fields : List (String × JsonValue))

namespace JsonValue

/-- `Value::is_null`. -/
def isNull : JsonValue → Bool
  | null => true
  | _ => false

/-- `Value::as_str`. -/
def asStr : JsonValue → Option String
  | string text => some text
  | _ => none

/-- `Value::get` with a name; only objects have named fields. -/
def get (name : String) : JsonValue → Option JsonValue
  | object fields => (fields.find? fun field => field.1 = name).map Prod.snd
  | _ => none

/-- Whether the value is `null` or an object without fields. -/
def isNullOrEmpty : JsonValue → Bool
  | null => true
  | object [] => true
  | _ => false

end JsonValue

end ArIoGateway
