import ArIoGateway.Codec
import ArIoGateway.Foundation.JsonText
import ArIoGateway.Foundation.Ranking
import Mathlib.Data.List.Lex

/-!
# Canonical JSON

The publication of the indexes is signed over a canonical text.  Keys stand in the order of their
UTF-16 code units, numbers are integers, and nothing stands between the parts, so that the text of a
document is a function of the document as a value and determines it.
-/

namespace ArIoGateway

open Octets

def signingPrefix : Bytes := utf8 "ar-io-index-publication/v1\n"

/-- `Number::is_u64`: the text of a number is read as a `u64`. -/
def isU64 (text : String) : Bool := (parseU64 text).isSome

/-- `Number::is_i64`. -/
def isI64 (text : String) : Bool := (parseI64 text).isSome

/-- The integer that a text stands for as a `u64` or as an `i64`. -/
def integerOf (text : String) : Option Int :=
  match parseU64 text with
  | some value => some value
  | none => parseI64 text

/-- `encode_utf16` on a character. -/
def utf16Units (char : Char) : List Nat :=
  if char.toNat < 65536 then [char.toNat]
  else [55296 + (char.toNat - 65536) / 1024, 56320 + (char.toNat - 65536) % 1024]

/-- `encode_utf16`. -/
def utf16 (text : String) : List Nat := text.toList.flatMap utf16Units

/-- The order of the entries of an object. -/
abbrev KeyBefore {α : Type} (left right : String × α) : Prop := utf16 left.1 ≤ utf16 right.1

/-- Parts with a comma in front of each one but the first. -/
def separated : List Bytes → Bytes
  | [] => []
  | part :: parts => part ++ parts.flatMap fun other => 44 :: other

/-- An entry of an object. -/
def writeEntry (entry : String × Checked Bytes) : Checked Bytes := do
  let value ← entry.2
  pure (JsonText.printString .lower (utf8 entry.1) ++ 58 :: value)

mutual

/-- `write_canonical`. -/
def writeCanonical : JsonValue → Checked Bytes
  | .null => pure (utf8 "null")
  | .bool value => pure (utf8 (if value then "true" else "false"))
  | .number text => do
      Checked.ensure (isU64 text = true ∨ isI64 text = true) "canonical JSON supports only integers"
      pure (utf8 text)
  | .string text => pure (JsonText.printString .lower (utf8 text))
  | .array items => do
      let parts ← writeItems items
      pure (91 :: (separated parts ++ [93]))
  | .object fields => do
      let entries := (writeFields fields).insertionSort KeyBefore
      let parts ← entries.mapM writeEntry
      pure (123 :: (separated parts ++ [125]))

/-- The texts of the items of an array. -/
def writeItems : List JsonValue → Checked (List Bytes)
  | [] => pure []
  | item :: items => do
      let part ← writeCanonical item
      let parts ← writeItems items
      pure (part :: parts)

/-- The entries of an object, each with what is written for its value. -/
def writeFields : List (String × JsonValue) → List (String × Checked Bytes)
  | [] => []
  | (key, value) :: fields => (key, writeCanonical value) :: writeFields fields

end

/-- `canonical_json`. -/
def canonicalJson (value : JsonValue) : Checked Bytes := writeCanonical value

/-- The message that `sign` signs. -/
def signingMessage (document : JsonValue) : Checked Bytes := do
  let text ← canonicalJson document
  pure (signingPrefix ++ text)

namespace JsonValue

mutual

/-- Whether all numbers satisfy a test. -/
def numbersAll (test : String → Bool) : JsonValue → Bool
  | .number text => test text
  | .array items => itemsAll test items
  | .object fields => fieldsAll test fields
  | _ => true

def itemsAll (test : String → Bool) : List JsonValue → Bool
  | [] => true
  | item :: items => numbersAll test item && itemsAll test items

def fieldsAll (test : String → Bool) : List (String × JsonValue) → Bool
  | [] => true
  | (_, value) :: fields => numbersAll test value && fieldsAll test fields

end

mutual

/-- The equality of values whose numbers are compared by `same`.  As in `Map`, an object is equal to
another one of the same size when the other one has an equal value for each of its keys. -/
def eqBy (same : String → String → Bool) : JsonValue → JsonValue → Bool
  | .null, .null => true
  | .bool left, .bool right => left == right
  | .number left, .number right => same left right
  | .string left, .string right => left == right
  | .array items, .array others => itemsEqBy same items others
  | .object fields, .object others =>
      fields.length == others.length && fieldsEqBy same fields others
  | _, _ => false

def itemsEqBy (same : String → String → Bool) : List JsonValue → List JsonValue → Bool
  | [], [] => true
  | item :: items, other :: others => eqBy same item other && itemsEqBy same items others
  | _, _ => false

def fieldsEqBy (same : String → String → Bool) :
    List (String × JsonValue) → List (String × JsonValue) → Bool
  | [], _ => true
  | (key, value) :: fields, others =>
      (match others.find? fun other => other.1 = key with
        | some other => eqBy same value other.2
        | none => false) &&
      fieldsEqBy same fields others

end

/-- `Value::eq`.  Numbers are equal when their texts are. -/
abbrev eq : JsonValue → JsonValue → Bool := eqBy fun left right => left == right

/-- The text of a number of a document: a minus sign or none, digits, and what is not a digit.  A
zero is the only one of the digits in front. -/
def NumberForm (text : String) : Prop :=
  ∃ sign digits rest, utf8 text = sign ++ digits ++ rest ∧ (sign = [] ∨ sign = [45]) ∧
    digits ≠ [] ∧ digits.all isAsciiDigit = true ∧ (digits.head? = some 48 → digits = [48]) ∧
    ∀ byte ∈ rest.head?, isAsciiDigit byte = false

mutual

/-- What holds of every value that is parsed or built: the keys of an object are different, and
numbers have the form of numbers. -/
def Lawful : JsonValue → Prop
  | .number text => NumberForm text
  | .array items => LawfulItems items
  | .object fields => (fields.map Prod.fst).Nodup ∧ LawfulFields fields
  | _ => True

def LawfulItems : List JsonValue → Prop
  | [] => True
  | item :: items => Lawful item ∧ LawfulItems items

def LawfulFields : List (String × JsonValue) → Prop
  | [] => True
  | (_, value) :: fields => Lawful value ∧ LawfulFields fields

end

end JsonValue

namespace JsonValue

/-- Induction over a value, with all items of an array and all fields of an object at once. -/
@[elab_as_elim]
theorem elements {motive : JsonValue → Prop} (null : motive .null)
    (bool : ∀ value, motive (.bool value)) (number : ∀ text, motive (.number text))
    (string : ∀ text, motive (.string text))
    (array : ∀ items : List JsonValue, (∀ item ∈ items, motive item) → motive (.array items))
    (object : ∀ fields : List (String × JsonValue), (∀ field ∈ fields, motive field.2) →
      motive (.object fields)) (value : JsonValue) : motive value := by
  apply @JsonValue.rec motive (fun items => ∀ item ∈ items, motive item)
    (fun fields => ∀ field ∈ fields, motive field.2) (fun field => motive field.2)
    null bool number string array object
  · simp
  · exact fun item items first rest => List.forall_mem_cons.mpr ⟨first, rest⟩
  · simp
  · exact fun field fields first rest => List.forall_mem_cons.mpr ⟨first, rest⟩
  · exact fun _ _ holds => holds

variable {test : String → Bool} {same : String → String → Bool}

theorem itemsAll_eq (items : List JsonValue) : itemsAll test items = items.all (numbersAll test) := by
  induction items with
  | nil => rfl
  | cons item items induction => rw [itemsAll, List.all_cons, induction]

theorem fieldsAll_eq (fields : List (String × JsonValue)) :
    fieldsAll test fields = fields.all fun field => numbersAll test field.2 := by
  induction fields with
  | nil => rfl
  | cons field fields induction => rw [fieldsAll, List.all_cons, induction]

theorem itemsEqBy_iff {items others : List JsonValue} :
    itemsEqBy same items others = true ↔ List.Forall₂ (fun item other => eqBy same item other) items
      others := by
  induction items generalizing others with
  | nil => cases others <;> simp [itemsEqBy]
  | cons item items induction =>
      cases others with
      | nil => simp [itemsEqBy]
      | cons other others => simp [itemsEqBy, induction]

theorem fieldsEqBy_iff {fields others : List (String × JsonValue)} :
    fieldsEqBy same fields others = true ↔ ∀ field ∈ fields, ∃ other,
      others.find? (fun other => other.1 = field.1) = some other ∧
        eqBy same field.2 other.2 = true := by
  induction fields with
  | nil => simp [fieldsEqBy]
  | cons field fields induction =>
      rw [fieldsEqBy, Bool.and_eq_true, List.forall_mem_cons, induction]
      cases others.find? fun other => other.1 = field.1 <;> simp

theorem lawfulItems_iff {items : List JsonValue} :
    LawfulItems items ↔ ∀ item ∈ items, item.Lawful := by
  induction items with
  | nil => simp [LawfulItems]
  | cons item items induction => rw [LawfulItems, List.forall_mem_cons, induction]

theorem lawfulFields_iff {fields : List (String × JsonValue)} :
    LawfulFields fields ↔ ∀ field ∈ fields, field.2.Lawful := by
  induction fields with
  | nil => simp [LawfulFields]
  | cons field fields induction => rw [LawfulFields, List.forall_mem_cons, induction]

end JsonValue

theorem writeItems_eq (items : List JsonValue) : writeItems items = items.mapM writeCanonical := by
  induction items with
  | nil => rfl
  | cons item items induction => rw [writeItems, List.mapM_cons, induction]

theorem writeFields_eq (fields : List (String × JsonValue)) :
    writeFields fields = fields.map fun field => (field.1, writeCanonical field.2) := by
  induction fields with
  | nil => rfl
  | cons field fields induction => rw [writeFields, List.map_cons, induction]

theorem utf16Units_append_inj {left right : Char} {leftRest rightRest : List Nat}
    (same : utf16Units left ++ leftRest = utf16Units right ++ rightRest) :
    left = right ∧ leftRest = rightRest := by
  have plane (char : Char) : char.toNat < 55296 ∨ 57343 < char.toNat ∧ char.toNat < 1114112 :=
    char.valid
  have leftPlane := plane left
  have rightPlane := plane right
  rw [← Char.toNat_inj]
  unfold utf16Units at same
  split at same <;> split at same <;>
    simp only [List.cons_append, List.nil_append, List.cons.injEq] at same
  · exact same
  · omega
  · omega
  · obtain ⟨high, low, rest⟩ := same
    exact ⟨by omega, rest⟩

theorem utf16_injective : Function.Injective utf16 := by
  have chars : ∀ left right : List Char,
      left.flatMap utf16Units = right.flatMap utf16Units → left = right := by
    have some (char : Char) (rest : List Nat) : utf16Units char ++ rest ≠ [] := by
      unfold utf16Units
      split <;> simp
    intro left
    induction left with
    | nil =>
        intro right same
        cases right with
        | nil => rfl
        | cons char right => exact absurd same.symm (some char _)
    | cons char left induction =>
        intro right same
        cases right with
        | nil => exact absurd same (some char _)
        | cons other right =>
            obtain ⟨rfl, rest⟩ := utf16Units_append_inj same
            rw [induction right rest]
  intro left right same
  exact String.toList_inj.mp (chars _ _ same)

section Keys

variable {α : Type}

instance : Std.Total (KeyBefore (α := α)) := ⟨fun _ _ => le_total _ _⟩

instance : IsTrans (String × α) KeyBefore := ⟨fun _ _ _ => le_trans⟩

/-- Values can be mapped before or after the entries are sorted. -/
theorem map_sorted {β : Type} (value : α → β) (entries : List (String × α)) :
    (entries.insertionSort KeyBefore).map (fun entry => (entry.1, value entry.2)) =
      (entries.map fun entry => (entry.1, value entry.2)).insertionSort KeyBefore :=
  List.map_insertionSort KeyBefore KeyBefore _ _ fun _ _ _ _ => Iff.rfl

/-- Entries with different keys are told apart by the order of keys. -/
theorem separates_keys {entries : List (String × α)} (distinct : (entries.map Prod.fst).Nodup) :
    Ranking.Separates KeyBefore entries := by
  intro first firstMember second secondMember ahead behind
  have key := utf16_injective (le_antisymm ahead behind)
  exact List.inj_on_of_nodup_map distinct firstMember secondMember key

end Keys

/-- A number that the canonical text accepts. -/
def isInteger (text : String) : Bool := isU64 text || isI64 text

mutual

/-- The document that the canonical text prints. -/
def JsonValue.form : JsonValue → JsonText.Json
  | .null => .null
  | .bool value => .bool value
  | .number text =>
      if spelled : utf8 text ≠ [] ∧ (utf8 text).all JsonText.isNumberByte = true then
        .number ⟨utf8 text, spelled⟩
      else .null
  | .string text => .string (utf8 text)
  | .array items => .array (formItems items)
  | .object fields =>
      .object (((formFields fields).insertionSort KeyBefore).map fun field =>
        (utf8 field.1, field.2))

def JsonValue.formItems : List JsonValue → List JsonText.Json
  | [] => []
  | item :: items => form item :: formItems items

def JsonValue.formFields :
    List (String × JsonValue) → List (String × JsonText.Json)
  | [] => []
  | (key, value) :: fields => (key, form value) :: formFields fields

end

namespace JsonValue

theorem form_array (items : List JsonValue) : form (.array items) = .array (items.map form) := by
  rw [form]
  congr 1
  induction items with
  | nil => rfl
  | cons item items induction => rw [formItems, List.map_cons, induction]

theorem formFields_eq (fields : List (String × JsonValue)) :
    formFields fields = fields.map fun field => (field.1, form field.2) := by
  induction fields with
  | nil => rfl
  | cons field fields induction => rw [formFields, List.map_cons, induction]

theorem form_object (fields : List (String × JsonValue)) : form (.object fields) =
    .object ((fields.insertionSort KeyBefore).map fun field => (utf8 field.1, form field.2)) := by
  rw [form, formFields_eq, ← map_sorted, List.map_map]
  rfl

end JsonValue

/-- What `write_canonical` gives for a value. -/
def canonicalOutcome (value : JsonValue) : Checked Bytes :=
  if value.numbersAll isInteger = true then .ok (JsonText.print .lower value.form)
  else .error "canonical JSON supports only integers"

theorem mapM_outcome {α β : Type} {step : α → Checked β} {keep : α → Bool} {result : α → β}
    {message : String} {rows : List α}
    (each : ∀ row ∈ rows, step row = if keep row = true then .ok (result row) else .error message) :
    rows.mapM step =
      if rows.all keep = true then .ok (rows.map result) else .error message := by
  induction rows with
  | nil => rfl
  | cons row rows induction =>
      rw [List.mapM_cons, each row List.mem_cons_self,
        induction fun other member => each other (List.mem_cons_of_mem _ member)]
      cases kept : keep row with
      | false =>
          rw [List.all_cons, kept, Bool.false_and, if_neg Bool.false_ne_true,
            if_neg Bool.false_ne_true]
          rfl
      | true =>
          rw [List.all_cons, kept, Bool.true_and, if_pos rfl, List.map_cons]
          by_cases all : rows.all keep = true
          · rw [if_pos all, if_pos all]
            rfl
          · rw [if_neg all, if_neg all]
            rfl

theorem print_array (items : List JsonText.Json) :
    JsonText.print .lower (.array items) =
      91 :: (separated (items.map (JsonText.print .lower)) ++ [93]) := by
  have behind (items : List JsonText.Json) : JsonText.printItems .lower items =
      (items.map (JsonText.print .lower)).flatMap (fun other => 44 :: other) ++ [93] := by
    induction items with
    | nil => rfl
    | cons item items induction =>
        rw [JsonText.printItems, induction, List.map_cons, List.flatMap_cons, List.cons_append,
          List.cons_append, List.append_assoc]
  cases items with
  | nil => rfl
  | cons item items =>
      rw [JsonText.print, behind, List.map_cons, separated, List.append_assoc]

/-- The text of a field. -/
def printField (field : Bytes × JsonText.Json) : Bytes :=
  JsonText.printString .lower field.1 ++ 58 :: JsonText.print .lower field.2

theorem print_object (fields : List (Bytes × JsonText.Json)) :
    JsonText.print .lower (.object fields) =
      123 :: (separated (fields.map printField) ++ [125]) := by
  have behind (fields : List (Bytes × JsonText.Json)) : JsonText.printFields .lower fields =
      (fields.map printField).flatMap (fun other => 44 :: other) ++ [125] := by
    induction fields with
    | nil => rfl
    | cons field fields induction =>
        simp only [JsonText.printFields, induction, List.map_cons, List.flatMap_cons, printField,
          List.cons_append, List.append_assoc]
  cases fields with
  | nil => rfl
  | cons field fields =>
      simp only [JsonText.print, behind, List.map_cons, separated, printField, List.cons_append,
        List.append_assoc]

theorem ofDigits_isNumber {text : Bytes} (digits : text.all isAsciiDigit = true) :
    text.all JsonText.isNumberByte = true := by
  apply List.all_eq_true.mpr
  intro byte member
  have digit := List.all_eq_true.mp digits byte member
  simp only [isAsciiDigit, decide_eq_true_eq] at digit
  simp [JsonText.isNumberByte, digit]

theorem parseU64_eq_some {text : String} {value : Nat} (parsed : parseU64 text = some value) :
    ∃ sign digits, utf8 text = sign ++ digits ∧ (sign = [] ∨ sign = [43]) ∧ digits ≠ [] ∧
      digits.all isAsciiDigit = true ∧ value = ofDecimal digits := by
  obtain ⟨⟨nonempty, all, -⟩, same⟩ := Option.ite_none_right_eq_some.mp parsed
  obtain rfl := Option.some.inj same
  clear same
  split at nonempty
  · next digits spelled =>
      simp only [spelled] at all ⊢
      exact ⟨[43], digits, rfl, .inr rfl, nonempty, all, rfl⟩
  · next plain =>
      split at all
      · next digits spelled => exact absurd spelled (plain digits)
      · exact ⟨[], utf8 text, rfl, .inl rfl, nonempty, all, rfl⟩

theorem parseI64_eq_some {text : String} {value : Int} (parsed : parseI64 text = some value) :
    ∃ sign digits, utf8 text = sign ++ digits ∧ (sign = [] ∨ sign = [43] ∨ sign = [45]) ∧
      digits ≠ [] ∧ digits.all isAsciiDigit = true ∧
      value = if sign = [45] then -(ofDecimal digits : Int) else ofDecimal digits := by
  obtain ⟨⟨nonempty, all, -⟩, same⟩ := Option.ite_none_right_eq_some.mp parsed
  obtain rfl := Option.some.inj same
  split at nonempty
  · next digits spelled =>
      simp only [spelled] at all ⊢
      exact ⟨[45], digits, rfl, .inr (.inr rfl), nonempty, all, rfl⟩
  · next digits spelled =>
      simp only [spelled] at all ⊢
      exact ⟨[43], digits, rfl, .inr (.inl rfl), nonempty, all, rfl⟩
  · next minus plus =>
      split at all
      · next digits spelled => exact absurd spelled (minus digits)
      · next digits spelled => exact absurd spelled (plus digits)
      · exact ⟨[], utf8 text, rfl, .inl rfl, nonempty, all, rfl⟩

/-- An accepted number is spelled with a sign or none and with digits. -/
theorem exists_digits {text : String} (integer : isInteger text = true) :
    ∃ sign digits, utf8 text = sign ++ digits ∧ (sign = [] ∨ sign = [43] ∨ sign = [45]) ∧
      digits ≠ [] ∧ digits.all isAsciiDigit = true ∧
      integerOf text =
        some (if sign = [45] then -(ofDecimal digits : Int) else ofDecimal digits) := by
  cases unsigned : parseU64 text with
  | some value =>
      obtain ⟨sign, digits, spelled, signs, nonempty, all, rfl⟩ := parseU64_eq_some unsigned
      rw [integerOf, unsigned]
      rcases signs with rfl | rfl
      · exact ⟨[], digits, spelled, .inl rfl, nonempty, all, rfl⟩
      · exact ⟨[43], digits, spelled, .inr (.inl rfl), nonempty, all, rfl⟩
  | none =>
      rw [isInteger, isU64, unsigned, Option.isSome_none, Bool.false_or, isI64] at integer
      obtain ⟨value, signed⟩ := Option.isSome_iff_exists.mp integer
      obtain ⟨sign, digits, spelled, signs, nonempty, all, rfl⟩ := parseI64_eq_some signed
      rw [integerOf, unsigned]
      exact ⟨sign, digits, spelled, signs, nonempty, all, signed⟩

theorem spelled_of_isInteger {text : String} (integer : isInteger text = true) :
    utf8 text ≠ [] ∧ (utf8 text).all JsonText.isNumberByte = true := by
  obtain ⟨sign, digits, text_eq, signs, nonempty, all, -⟩ := exists_digits integer
  rw [text_eq, List.all_append, ofDigits_isNumber all]
  refine ⟨fun none => nonempty (List.append_eq_nil_iff.mp none).2, ?_⟩
  rcases signs with rfl | rfl | rfl <;> rfl

theorem writeCanonical_eq (value : JsonValue) : writeCanonical value = canonicalOutcome value := by
  induction value using JsonValue.elements with
  | null => rfl
  | bool value => cases value <;> rfl
  | number text =>
      rw [writeCanonical, canonicalOutcome, JsonValue.numbersAll]
      by_cases integer : isInteger text = true
      · rw [if_pos integer, Checked.ensure_of (Bool.or_eq_true_iff.mp integer), JsonValue.form,
          dif_pos (spelled_of_isInteger integer)]
        rfl
      · rw [if_neg integer, Checked.ensure,
          if_neg fun either => integer (Bool.or_eq_true_iff.mpr either)]
        rfl
  | string text => rfl
  | array items induction =>
      rw [writeCanonical, writeItems_eq, mapM_outcome induction, canonicalOutcome,
        JsonValue.numbersAll, JsonValue.itemsAll_eq, JsonValue.form_array, print_array,
        List.map_map]
      split <;> rfl
  | object fields induction =>
      have written : ∀ field ∈ fields.insertionSort KeyBefore,
          (writeEntry ∘ fun field => (field.1, writeCanonical field.2)) field =
            if field.2.numbersAll isInteger = true then .ok (printField (utf8 field.1, field.2.form))
            else .error "canonical JSON supports only integers" := by
        intro field member
        rw [Function.comp_apply, writeEntry,
          induction field ((List.mem_insertionSort KeyBefore).mp member),
          canonicalOutcome]
        split <;> rfl
      have sorted : (writeFields fields).insertionSort KeyBefore =
          (fields.insertionSort KeyBefore).map fun field => (field.1, writeCanonical field.2) := by
        rw [writeFields_eq, map_sorted]
      have accepted : ((fields.insertionSort KeyBefore).all fun field =>
          field.2.numbersAll isInteger) = fields.all fun field => field.2.numbersAll isInteger :=
        (List.perm_insertionSort KeyBefore fields).all_eq
      rw [writeCanonical, sorted, List.mapM_map, mapM_outcome written, accepted, canonicalOutcome,
        JsonValue.numbersAll, JsonValue.fieldsAll_eq, JsonValue.form_object, print_object,
        List.map_map]
      split <;> rfl

theorem isAsciiDigit_iff {byte : UInt8} :
    isAsciiDigit byte = true ↔ 48 ≤ byte.toNat ∧ byte.toNat ≤ 57 := by
  simp [isAsciiDigit]

/-- An accepted number of a document is the decimal text of its size behind its sign. -/
theorem JsonValue.NumberForm.decimal {text : String} (form : NumberForm text)
    (integer : isInteger text = true) :
    ∃ size, (utf8 text = Octets.decimal size ∧ integerOf text = some (size : Int)) ∨
      (utf8 text = 45 :: Octets.decimal size ∧ integerOf text = some (-(size : Int))) := by
  obtain ⟨sign, digits, spelled, signs, nonempty, all, value⟩ := exists_digits integer
  obtain ⟨minus, whole, rest, formed, minuses, some, wholeDigits, minimal, stop⟩ := form
  have noDigit {byte : UInt8} {bytes others : Bytes} (all : bytes.all isAsciiDigit = true)
      (other : isAsciiDigit byte = false) : bytes ≠ byte :: others := by
    rintro rfl
    rw [List.all_cons, other] at all
    cases all
  have ends (front : digits = whole ++ rest) : Octets.decimal (ofDecimal digits) = digits := by
    have last : rest = [] := by
      cases rest with
      | nil => rfl
      | cons byte rest =>
          rw [front, List.all_append, Bool.and_eq_true] at all
          exact absurd rfl (noDigit all.2 (stop byte rfl))
    rw [last, List.append_nil] at front
    subst front
    exact decimal_ofDecimal nonempty
      (fun byte member => isAsciiDigit_iff.mp (List.all_eq_true.mp all byte member)) minimal
  have same : sign ++ digits = minus ++ whole ++ rest := spelled.symm.trans formed
  obtain ⟨first, behind, rfl⟩ := List.exists_cons_of_ne_nil some
  refine ⟨ofDecimal digits, ?_⟩
  rcases signs with rfl | rfl | rfl <;> rcases minuses with rfl | rfl
  · left
    exact ⟨spelled.trans (ends same).symm, value⟩
  · exact absurd same (noDigit all rfl)
  · obtain ⟨rfl, -⟩ := List.cons.inj same
    exact absurd rfl (noDigit wholeDigits rfl)
  · exact absurd (List.cons.inj same).1 (by decide)
  · obtain ⟨rfl, -⟩ := List.cons.inj same
    exact absurd rfl (noDigit wholeDigits rfl)
  · right
    rw [ends (List.cons.inj same).2]
    exact ⟨spelled, value⟩

/-- Numbers of documents are the same text when they are the same integer, negative zero apart. -/
theorem number_eq_iff {left right : String} (leftForm : JsonValue.NumberForm left)
    (rightForm : JsonValue.NumberForm right) (leftInteger : isInteger left = true)
    (rightInteger : isInteger right = true) :
    left = right ↔ integerOf left = integerOf right ∧ (left = "-0" ↔ right = "-0") := by
  constructor
  · rintro rfl
    exact ⟨rfl, Iff.rfl⟩
  · rintro ⟨same, zero⟩
    have minusZero (text : String) : text = "-0" ↔ utf8 text = 45 :: Octets.decimal 0 :=
      utf8_injective.eq_iff.symm
    rw [minusZero, minusZero] at zero
    apply utf8_injective
    obtain ⟨leftSize, ⟨leftText, leftValue⟩ | ⟨leftText, leftValue⟩⟩ :=
      leftForm.decimal leftInteger <;>
      obtain ⟨rightSize, ⟨rightText, rightValue⟩ | ⟨rightText, rightValue⟩⟩ :=
        rightForm.decimal rightInteger <;>
      rw [leftValue, rightValue, Option.some.injEq] at same <;>
      rw [leftText, rightText] at zero ⊢
    · rw [Int.ofNat.inj same]
    · obtain ⟨rfl, rfl⟩ : leftSize = 0 ∧ rightSize = 0 := by omega
      exact zero.mpr rfl
    · obtain ⟨rfl, rfl⟩ : leftSize = 0 ∧ rightSize = 0 := by omega
      exact (zero.mp rfl).symm
    · obtain rfl : leftSize = rightSize := by omega
      rfl

namespace JsonValue

theorem form_number {text : String} (integer : isInteger text = true) :
    form (.number text) = .number ⟨utf8 text, spelled_of_isInteger integer⟩ := by
  rw [form, dif_pos]

theorem map_eq_map_iff {α β : Type} {left : α → β} {agree : α → α → Prop} {items others : List α}
    (each : ∀ item ∈ items, ∀ other ∈ others, left item = left other ↔ agree item other) :
    items.map left = others.map left ↔ List.Forall₂ agree items others := by
  induction items generalizing others with
  | nil => cases others <;> simp
  | cons item items induction =>
      cases others with
      | nil => simp
      | cons other others =>
          rw [List.map_cons, List.map_cons, List.cons.injEq, List.forall₂_cons,
            each item List.mem_cons_self other List.mem_cons_self,
            induction fun item member other inside =>
              each item (List.mem_cons_of_mem _ member) other (List.mem_cons_of_mem _ inside)]

theorem find?_key {α : Type} {entries : List (String × α)} {entry : String × α}
    (distinct : (entries.map Prod.fst).Nodup) (member : entry ∈ entries) :
    entries.find? (fun other => other.1 = entry.1) = some entry := by
  cases found : entries.find? fun other => other.1 = entry.1 with
  | none => exact absurd (List.find?_eq_none.mp found entry member) (by simp)
  | some other =>
      have key : other.1 = entry.1 := by simpa using List.find?_some found
      exact congrArg some
        (List.inj_on_of_nodup_map distinct (List.mem_of_find?_eq_some found) member key)

/-- Entries of different keys that are all found among as many others come in one order. -/
theorem map_sorted_eq {α β : Type} {value : α → β} {entries others : List (String × α)}
    (distinct : (entries.map Prod.fst).Nodup) (otherDistinct : (others.map Prod.fst).Nodup)
    (sized : entries.length = others.length)
    (found : ∀ entry ∈ entries, ∃ other ∈ others, other.1 = entry.1 ∧ value other.2 = value entry.2) :
    (entries.insertionSort KeyBefore).map (fun entry => (entry.1, value entry.2)) =
      (others.insertionSort KeyBefore).map fun entry => (entry.1, value entry.2) := by
  have keys (rows : List (String × α)) :
      (rows.map fun entry => (entry.1, value entry.2)).map Prod.fst = rows.map Prod.fst := by
    rw [List.map_map]
    rfl
  have inside : entries.map (fun entry => (entry.1, value entry.2)) ⊆
      others.map fun entry => (entry.1, value entry.2) := by
    intro pair member
    obtain ⟨entry, inEntries, rfl⟩ := List.mem_map.mp member
    obtain ⟨other, inOthers, key, values⟩ := found entry inEntries
    exact List.mem_map.mpr ⟨other, inOthers, by rw [key, values]⟩
  have once : (entries.map fun entry => (entry.1, value entry.2)).Nodup :=
    List.Nodup.of_map Prod.fst (by rwa [keys])
  have same := (List.subperm_of_subset once inside).perm_of_length_le (by simp [sized])
  rw [map_sorted, map_sorted]
  exact Ranking.insertionSort_perm (separates_keys (by rwa [keys])) same

/-- Values have the same form exactly when they are equal, by any test that tells the texts of
accepted numbers apart. -/
theorem form_eq_iff {same : String → String → Bool}
    (tells : ∀ text other, NumberForm text → NumberForm other → isInteger text = true →
      isInteger other = true → (text = other ↔ same text other = true))
    {left right : JsonValue} (leftLawful : left.Lawful)
    (rightLawful : right.Lawful) (leftIntegers : left.numbersAll isInteger = true)
    (rightIntegers : right.numbersAll isInteger = true) :
    left.form = right.form ↔ left.eqBy same right = true := by
  induction left using elements generalizing right with
  | null =>
      cases right with
      | number other =>
          rw [form_number rightIntegers]
          simp [form, eqBy]
      | _ => simp [form, eqBy]
  | bool value =>
      cases right with
      | number other =>
          rw [form_number rightIntegers]
          simp [form, eqBy]
      | _ => simp [form, eqBy]
  | number text =>
      rw [form_number leftIntegers]
      cases right with
      | number other =>
          rw [form_number rightIntegers, JsonText.Json.number.injEq, Subtype.mk.injEq,
            utf8_injective.eq_iff, eqBy]
          exact tells text other leftLawful rightLawful leftIntegers rightIntegers
      | _ => simp [form, eqBy]
  | string text =>
      cases right with
      | number other =>
          rw [form_number rightIntegers]
          simp [form, eqBy]
      | string other => simp [form, eqBy, utf8_injective.eq_iff]
      | _ => simp [form, eqBy]
  | array items induction =>
      cases right with
      | number other =>
          rw [form_number rightIntegers]
          simp [form, eqBy]
      | array others =>
          rw [form_array, form_array, JsonText.Json.array.injEq, eqBy, itemsEqBy_iff]
          have each := lawfulItems_iff.mp leftLawful
          have others_each := lawfulItems_iff.mp rightLawful
          rw [numbersAll, itemsAll_eq, List.all_eq_true] at leftIntegers rightIntegers
          exact map_eq_map_iff fun item member other inside =>
            induction item member (each item member) (others_each other inside)
              (leftIntegers item member) (rightIntegers other inside)
      | _ => simp [form, eqBy]
  | object fields induction =>
      cases right with
      | number other =>
          rw [form_number rightIntegers]
          simp [form, eqBy]
      | object others =>
          obtain ⟨leftDistinct, leftEach⟩ := leftLawful
          obtain ⟨rightDistinct, rightEach⟩ := rightLawful
          rw [lawfulFields_iff] at leftEach rightEach
          rw [numbersAll, fieldsAll_eq, List.all_eq_true] at leftIntegers rightIntegers
          have agree : ∀ field ∈ fields, ∀ other ∈ others,
              field.2.form = other.2.form ↔ field.2.eqBy same other.2 = true :=
            fun field member other inside => induction field member (leftEach field member)
              (rightEach other inside) (leftIntegers field member) (rightIntegers other inside)
          rw [form_object, form_object, JsonText.Json.object.injEq, eqBy, Bool.and_eq_true,
            beq_iff_eq, fieldsEqBy_iff]
          constructor
          · intro written
            have sized := congrArg List.length written
            rw [List.length_map, List.length_map, List.length_insertionSort,
              List.length_insertionSort] at sized
            refine ⟨sized, fun field member => ?_⟩
            have placed : (utf8 field.1, field.2.form) ∈
                (others.insertionSort KeyBefore).map fun field => (utf8 field.1, field.2.form) := by
              rw [← written]
              exact List.mem_map.mpr ⟨field, (List.mem_insertionSort KeyBefore).mpr member, rfl⟩
            obtain ⟨other, sorted, pair⟩ := List.mem_map.mp placed
            obtain ⟨key, forms⟩ := Prod.mk.inj pair
            have inside := (List.mem_insertionSort KeyBefore).mp sorted
            refine ⟨other, ?_, (agree field member other inside).mp forms.symm⟩
            rw [← utf8_injective key]
            exact find?_key rightDistinct inside
          · rintro ⟨sized, found⟩
            have forms : ∀ field ∈ fields, ∃ other ∈ others, other.1 = field.1 ∧
                other.2.form = field.2.form := by
              intro field member
              obtain ⟨other, there, equal⟩ := found field member
              have inside := List.mem_of_find?_eq_some there
              exact ⟨other, inside, by simpa using List.find?_some there,
                ((agree field member other inside).mpr equal).symm⟩
            have sorted := map_sorted_eq leftDistinct rightDistinct sized forms
            have encoded := congrArg (List.map fun entry => (utf8 entry.1, entry.2)) sorted
            rw [List.map_map, List.map_map] at encoded
            exact encoded
      | _ => simp [form, eqBy]

end JsonValue

/-- The same integer, with negative zero apart from zero. -/
def sameNumber (left right : String) : Bool :=
  integerOf left == integerOf right && (left == "-0") == (right == "-0")

theorem canonicalJson_eq_ok {value : JsonValue} {text : Bytes} :
    canonicalJson value = .ok text ↔
      value.numbersAll isInteger = true ∧ JsonText.print .lower value.form = text := by
  rw [canonicalJson, writeCanonical_eq, canonicalOutcome]
  split
  · next accepted => simp [accepted]
  · next refused => simp [refused]

/-- The order of the fields does not matter to what is written, nor to whether it is. -/
theorem canonicalJson_perm {fields others : List (String × JsonValue)}
    (distinct : (fields.map Prod.fst).Nodup) (same : others.Perm fields) :
    canonicalJson (.object others) = canonicalJson (.object fields) := by
  rw [canonicalJson, canonicalJson, writeCanonical_eq, writeCanonical_eq, canonicalOutcome,
    canonicalOutcome, JsonValue.form_object, JsonValue.form_object,
    Ranking.insertionSort_perm (separates_keys distinct) same, JsonValue.numbersAll,
    JsonValue.numbersAll, JsonValue.fieldsAll_eq, JsonValue.fieldsAll_eq, same.all_eq]

/-- The canonical texts of two documents are the same exactly when the documents are equal as values,
and so are the messages that are signed.  Numbers are the same when they are the same integer, but
negative zero keeps its sign.  Fields may be inserted in any order. -/
theorem canonical_json_binds {left right : JsonValue} {leftText rightText : Bytes}
    (leftLawful : left.Lawful) (rightLawful : right.Lawful)
    (leftWritten : canonicalJson left = .ok leftText)
    (rightWritten : canonicalJson right = .ok rightText) :
    (leftText = rightText ↔ left.eq right = true) ∧
    (signingMessage left = signingMessage right ↔ left.eq right = true) ∧
    (left.eq right = true ↔ left.eqBy sameNumber right = true) ∧
    ∀ fields others, (fields.map Prod.fst).Nodup → others.Perm fields →
      canonicalJson (.object others) = canonicalJson (.object fields) := by
  obtain ⟨leftIntegers, rfl⟩ := canonicalJson_eq_ok.mp leftWritten
  obtain ⟨rightIntegers, rfl⟩ := canonicalJson_eq_ok.mp rightWritten
  have texts : left.form = right.form ↔ left.eq right = true := by
    apply JsonValue.form_eq_iff _ leftLawful rightLawful leftIntegers rightIntegers
    intro text other _ _ _ _
    exact beq_iff_eq.symm
  have numbers : left.form = right.form ↔ left.eqBy sameNumber right = true := by
    apply JsonValue.form_eq_iff _ leftLawful rightLawful leftIntegers rightIntegers
    intro text other form otherForm integer otherInteger
    rw [number_eq_iff form otherForm integer otherInteger]
    simp [sameNumber]
  have printed : JsonText.print .lower left.form = JsonText.print .lower right.form ↔
      left.form = right.form := JsonText.print_injective.eq_iff
  refine ⟨printed.trans texts, ?_, texts.symm.trans numbers, fun _ _ => canonicalJson_perm⟩
  rw [signingMessage, signingMessage, leftWritten, rightWritten, ← texts, ← printed]
  constructor
  · intro same
    exact List.append_cancel_left (Except.ok.inj same)
  · intro same
    rw [same]

/-- A document and the same document with its keys in another order. -/
def sampleDocument (turned : Bool) : JsonValue :=
  .object [("indexes", .object (if turned then [("é", .null), ("z", .number "-0")]
      else [("z", .number "-0"), ("é", .null)])),
    ("b", .array [.number "18446744073709551615", .string "\x01\"", .bool true])]

theorem sampleDocument_lawful (turned : Bool) : (sampleDocument turned).Lawful := by
  have zero : JsonValue.NumberForm "-0" :=
    ⟨[45], [48], [], rfl, .inr rfl, by decide, rfl, by decide, by decide +kernel⟩
  have large : JsonValue.NumberForm "18446744073709551615" :=
    ⟨[], utf8 "18446744073709551615", [], rfl, .inl rfl, by decide, by decide,
      by decide, by decide +kernel⟩
  cases turned <;> simp [sampleDocument, JsonValue.Lawful, JsonValue.LawfulFields,
    JsonValue.LawfulItems, zero, large]

/-- The two documents are equal as values and have one text. -/
theorem canonical_json_binds_sample :
    (sampleDocument true).eq (sampleDocument false) = true ∧
      canonicalJson (sampleDocument true) = .ok (utf8 ("\x7b\"b\":[18446744073709551615," ++
        "\"\\u0001\\\"\",true],\"indexes\":\x7b\"z\":-0,\"é\":null\x7d\x7d")) := by
  have written (turned : Bool) : canonicalJson (sampleDocument turned) =
      .ok (utf8 ("\x7b\"b\":[18446744073709551615," ++
        "\"\\u0001\\\"\",true],\"indexes\":\x7b\"z\":-0,\"é\":null\x7d\x7d")) := by
    cases turned <;> rfl
  have binds := canonical_json_binds (sampleDocument_lawful true) (sampleDocument_lawful false)
    (written true) (written false)
  exact ⟨binds.1.mp rfl, written true⟩

end ArIoGateway
