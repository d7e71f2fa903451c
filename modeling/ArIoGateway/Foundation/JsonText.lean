import ArIoGateway.Foundation.Octets

/-!
# Compact JSON text

JSON values are printed without white space, with short escapes in strings and numbers as they are
spelled.  A printed value can be read back from the front of a longer text, so that the text of a
document determines the document.
-/

namespace JsonText

/-- The bytes that numbers are spelled with. -/
def isNumberByte (byte : UInt8) : Bool :=
  (48 ≤ byte.toNat ∧ byte.toNat ≤ 57) ∨ byte = 43 ∨ byte = 45 ∨ byte = 46 ∨ byte = 101

/-- The spelling of a number. -/
abbrev NumberText := { bytes : Bytes // bytes ≠ [] ∧ bytes.all isNumberByte = true }

/-- A JSON value with numbers as they are spelled and strings as their bytes. -/
inductive Json where
  | null
  | bool (value : Bool)
  | number (text : NumberText)
  | string (bytes : Bytes)
  | array (items : List Json)
  | object (fields : List (Bytes × Json))

/-- The letters of hexadecimal digits in escapes. -/
inductive HexCase where
  | upper | lower

/-- A hexadecimal digit. -/
def HexCase.digit (hex : HexCase) (value : Nat) : UInt8 :=
  UInt8.ofNat (if value < 10 then 48 + value else
    match hex with
    | .upper => 55 + value
    | .lower => 87 + value)

variable (hex : HexCase)

/-- A byte of a string, escaped where it has to be. -/
def escapeByte (byte : UInt8) : Bytes :=
  if byte = 34 then [92, 34]
  else if byte = 92 then [92, 92]
  else if byte = 8 then [92, 98]
  else if byte = 9 then [92, 116]
  else if byte = 10 then [92, 110]
  else if byte = 12 then [92, 102]
  else if byte = 13 then [92, 114]
  else if byte.toNat < 32 then
    [92, 117, 48, 48, hex.digit (byte.toNat / 16), hex.digit (byte.toNat % 16)]
  else [byte]

/-- A string between quotation marks. -/
def printString (bytes : Bytes) : Bytes := 34 :: (bytes.flatMap (escapeByte hex) ++ [34])

/-- Whether a byte of a string is escaped. -/
def escaped (byte : UInt8) : Bool := byte = 34 ∨ byte = 92 ∨ byte.toNat < 32

variable {hex}

theorem escapeByte_of_not_escaped {byte : UInt8} (plain : escaped byte = false) :
    escapeByte hex byte = [byte] := by
  simp only [escaped, decide_eq_false_iff_not, not_or] at plain
  obtain ⟨quote, backslash, control⟩ := plain
  have other : ∀ code : UInt8, code.toNat < 32 → byte ≠ code := fun code small same =>
    control (same ▸ small)
  rw [escapeByte, if_neg quote, if_neg backslash, if_neg (other 8 (by decide)),
    if_neg (other 9 (by decide)), if_neg (other 10 (by decide)), if_neg (other 12 (by decide)),
    if_neg (other 13 (by decide)), if_neg control]

/-- The bytes that are escaped. -/
def escapedBytes : Bytes := 34 :: 92 :: (List.range 32).map UInt8.ofNat

theorem mem_escapedBytes {byte : UInt8} (special : escaped byte = true) : byte ∈ escapedBytes := by
  simp only [escaped, decide_eq_true_eq] at special
  rcases special with rfl | rfl | control
  · exact List.mem_cons_self
  · exact List.mem_cons_of_mem _ List.mem_cons_self
  · refine List.mem_cons_of_mem _ (List.mem_cons_of_mem _ (List.mem_map.mpr ?_))
    exact ⟨byte.toNat, List.mem_range.mpr control, by simp⟩

theorem head_escapeByte {byte : UInt8} (special : escaped byte = true) :
    ∃ rest, escapeByte hex byte = 92 :: rest := by
  have all : (escapedBytes.all fun other => (escapeByte hex other).head? == some 92) = true := by
    cases hex <;> decide
  have head := beq_iff_eq.mp (List.all_eq_true.mp all byte (mem_escapedBytes special))
  cases spelled : escapeByte hex byte with
  | nil => simp [spelled] at head
  | cons first rest => exact ⟨rest, by simpa [spelled] using head⟩

/-- No escape is the beginning of another one. -/
theorem eq_of_prefix_escapeByte {left right : UInt8}
    (short : escapeByte hex left <+: escapeByte hex right) : left = right := by
  cases leftSpecial : escaped left with
  | false =>
      rw [escapeByte_of_not_escaped leftSpecial] at short
      cases rightSpecial : escaped right with
      | false =>
          rw [escapeByte_of_not_escaped rightSpecial] at short
          simpa using short
      | true =>
          obtain ⟨rest, spelled⟩ := head_escapeByte rightSpecial
          rw [spelled] at short
          obtain rfl : left = 92 := by simpa using short
          simp [escaped] at leftSpecial
  | true =>
      cases rightSpecial : escaped right with
      | false =>
          obtain ⟨rest, spelled⟩ := head_escapeByte leftSpecial
          rw [spelled, escapeByte_of_not_escaped rightSpecial] at short
          obtain rfl : (92 : UInt8) = right := by
            simpa using (List.cons_prefix_cons.mp short).1
          simp [escaped] at rightSpecial
      | true =>
          have all : (escapedBytes.all fun first => escapedBytes.all fun second =>
              !(escapeByte hex first).isPrefixOf (escapeByte hex second) || first == second) =
                true := by
            cases hex <;> decide
          have pair := List.all_eq_true.mp (List.all_eq_true.mp all left
            (mem_escapedBytes leftSpecial)) right (mem_escapedBytes rightSpecial)
          rcases Bool.or_eq_true_iff.mp pair with apart | same
          · rw [List.isPrefixOf_iff_prefix.mpr short] at apart
            contradiction
          · exact beq_iff_eq.mp same

theorem escapeByte_append_inj {left right : UInt8} {leftRest rightRest : Bytes}
    (same : escapeByte hex left ++ leftRest = escapeByte hex right ++ rightRest) :
    left = right ∧ leftRest = rightRest := by
  have equal : left = right := by
    rcases List.prefix_or_prefix_of_prefix (List.prefix_append (escapeByte hex left) leftRest)
      (same ▸ List.prefix_append (escapeByte hex right) rightRest) with short | short
    · exact eq_of_prefix_escapeByte short
    · exact (eq_of_prefix_escapeByte short).symm
  subst equal
  exact ⟨rfl, List.append_cancel_left same⟩

theorem escapeByte_append_ne {byte : UInt8} {rest after : Bytes} :
    escapeByte hex byte ++ rest ≠ 34 :: after := by
  intro same
  cases special : escaped byte with
  | false =>
      rw [escapeByte_of_not_escaped special] at same
      obtain rfl : byte = 34 := (List.cons.inj same).1
      simp [escaped] at special
  | true =>
      obtain ⟨others, spelled⟩ := head_escapeByte special
      rw [spelled] at same
      exact absurd (List.cons.inj same).1 (by decide)

theorem escaped_append_inj {left right leftRest rightRest : Bytes}
    (same : left.flatMap (escapeByte hex) ++ 34 :: leftRest =
      right.flatMap (escapeByte hex) ++ 34 :: rightRest) :
    left = right ∧ leftRest = rightRest := by
  induction left generalizing right with
  | nil =>
      cases right with
      | nil => exact ⟨rfl, (List.cons.inj same).2⟩
      | cons byte right =>
          rw [List.flatMap_cons, List.append_assoc] at same
          exact absurd same.symm escapeByte_append_ne
  | cons byte left induction =>
      rw [List.flatMap_cons, List.append_assoc] at same
      cases right with
      | nil => exact absurd same escapeByte_append_ne
      | cons other right =>
          rw [List.flatMap_cons, List.append_assoc] at same
          obtain ⟨rfl, others⟩ := escapeByte_append_inj same
          obtain ⟨rfl, rest⟩ := induction others
          exact ⟨rfl, rest⟩

theorem printString_append_inj {left right leftRest rightRest : Bytes}
    (same : printString hex left ++ leftRest = printString hex right ++ rightRest) :
    left = right ∧ leftRest = rightRest := by
  simp only [printString, List.cons_append, List.append_assoc, List.cons.injEq, true_and,
    List.nil_append] at same
  exact escaped_append_inj same

section Print

variable (hex)

mutual

/-- The text of a value. -/
def print : Json → Bytes
  | .null => [110, 117, 108, 108]
  | .bool true => [116, 114, 117, 101]
  | .bool false => [102, 97, 108, 115, 101]
  | .number text => text.val
  | .string bytes => printString hex bytes
  | .array [] => [91, 93]
  | .array (item :: items) => 91 :: (print item ++ printItems items)
  | .object [] => [123, 125]
  | .object ((key, value) :: fields) =>
      123 :: (printString hex key ++ 58 :: (print value ++ printFields fields))

/-- The text of the items behind the first one, with the closing bracket. -/
def printItems : List Json → Bytes
  | [] => [93]
  | item :: items => 44 :: (print item ++ printItems items)

/-- The text of the fields behind the first one, with the closing brace. -/
def printFields : List (Bytes × Json) → Bytes
  | [] => [125]
  | (key, value) :: fields =>
      44 :: (printString hex key ++ 58 :: (print value ++ printFields fields))

end

end Print

/-- The text behind a value goes on with a comma or a closing bracket, or it is empty. -/
def Ends (rest : Bytes) : Prop := ∀ byte ∈ rest.head?, byte = 44 ∨ byte = 93 ∨ byte = 125

theorem ends_nil : Ends [] := by simp [Ends]

theorem ends_printItems (items : List Json) (rest : Bytes) :
    Ends (printItems hex items ++ rest) := by
  cases items <;> simp [printItems, Ends]

theorem ends_printFields (fields : List (Bytes × Json)) (rest : Bytes) :
    Ends (printFields hex fields ++ rest) := by
  cases fields <;> simp [printFields, Ends]

/-- What the first byte of a value tells of it. -/
inductive Kind where
  | null | true | false | number | string | array | object
deriving DecidableEq

/-- The kind of value that starts with a byte. -/
def kindOf (byte : UInt8) : Option Kind :=
  if isNumberByte byte = true then some .number
  else if byte = 110 then some .null
  else if byte = 116 then some .true
  else if byte = 102 then some .false
  else if byte = 34 then some .string
  else if byte = 91 then some .array
  else if byte = 123 then some .object
  else none

/-- The kind of a value. -/
def Json.kind : Json → Kind
  | .null => .null
  | .bool true => .true
  | .bool false => .false
  | .number _ => .number
  | .string _ => .string
  | .array _ => .array
  | .object _ => .object

theorem kind_print (hex : HexCase) (value : Json) (rest : Bytes) :
    (print hex value ++ rest).head?.bind kindOf = some value.kind := by
  cases value with
  | null => rfl
  | bool value => cases value <;> rfl
  | number text =>
      obtain ⟨bytes, nonempty, spelled⟩ := text
      cases bytes with
      | nil => exact absurd rfl nonempty
      | cons byte bytes =>
          simp only [List.all_cons, Bool.and_eq_true] at spelled
          simp [print, Json.kind, kindOf, spelled.1]
  | string bytes => rfl
  | array items => cases items <;> rfl
  | object fields => cases fields <;> rfl

theorem number_append_inj {left right : NumberText} {leftRest rightRest : Bytes}
    (leftEnds : Ends leftRest) (rightEnds : Ends rightRest)
    (same : left.val ++ leftRest = right.val ++ rightRest) :
    left = right ∧ leftRest = rightRest := by
  have spelled : ∀ (text : NumberText) (rest : Bytes), Ends rest →
      (text.val ++ rest).takeWhile isNumberByte = text.val := by
    intro text rest ends
    rw [List.takeWhile_append_of_pos (List.all_eq_true.mp text.property.2)]
    cases rest with
    | nil => simp
    | cons byte rest =>
        have stop : isNumberByte byte = false := by
          rcases ends byte rfl with rfl | rfl | rfl <;> rfl
        simp [stop]
  have equal : left = right := Subtype.ext (by
    rw [← spelled left leftRest leftEnds, same, spelled right rightRest rightEnds])
  subst equal
  exact ⟨rfl, List.append_cancel_left same⟩

theorem print_append_ne_bracket (value : Json) (rest after : Bytes) :
    print hex value ++ rest ≠ 93 :: after := by
  intro same
  have kind := kind_print hex value rest
  rw [same] at kind
  exact absurd kind (by simp [kindOf, isNumberByte])

mutual

/-- The text of a value determines the value and what stands behind it. -/
theorem print_append_inj : ∀ (left right : Json) {leftRest rightRest : Bytes}, Ends leftRest →
    Ends rightRest → print hex left ++ leftRest = print hex right ++ rightRest →
      left = right ∧ leftRest = rightRest := by
  intro left right leftRest rightRest leftEnds rightEnds same
  have kinds : left.kind = right.kind := Option.some.inj (by
    rw [← kind_print hex left leftRest, same, kind_print])
  cases left with
  | null =>
      cases right with
      | null => exact ⟨rfl, List.append_cancel_left same⟩
      | bool value => cases value <;> cases kinds
      | _ => cases kinds
  | bool value =>
      cases right with
      | bool other =>
          cases value <;> cases other
          · exact ⟨rfl, List.append_cancel_left same⟩
          · cases kinds
          · cases kinds
          · exact ⟨rfl, List.append_cancel_left same⟩
      | _ => cases value <;> cases kinds
  | number text =>
      cases right with
      | number other =>
          obtain ⟨rfl, rest⟩ := number_append_inj leftEnds rightEnds same
          exact ⟨rfl, rest⟩
      | bool value => cases value <;> cases kinds
      | _ => cases kinds
  | string bytes =>
      cases right with
      | string other =>
          obtain ⟨rfl, rest⟩ := printString_append_inj same
          exact ⟨rfl, rest⟩
      | bool value => cases value <;> cases kinds
      | _ => cases kinds
  | array items =>
      cases right with
      | array others =>
          cases items with
          | nil =>
              cases others with
              | nil => exact ⟨rfl, List.append_cancel_left same⟩
              | cons other others =>
                  simp only [print, List.cons_append, List.nil_append, List.append_assoc,
                    List.cons.injEq, true_and] at same
                  exact absurd same.symm (print_append_ne_bracket _ _ _)
          | cons item items =>
              simp only [print, List.cons_append, List.append_assoc] at same
              cases others with
              | nil =>
                  simp only [print, List.cons_append, List.nil_append, List.cons.injEq,
                    true_and] at same
                  exact absurd same (print_append_ne_bracket _ _ _)
              | cons other others =>
                  simp only [print, List.cons_append, List.append_assoc, List.cons.injEq,
                    true_and] at same
                  obtain ⟨rfl, behind⟩ := print_append_inj item other (ends_printItems _ _)
                    (ends_printItems _ _) same
                  obtain ⟨rfl, rest⟩ := printItems_append_inj items others behind
                  exact ⟨rfl, rest⟩
      | bool value => cases value <;> cases kinds
      | _ => cases kinds
  | object fields =>
      cases right with
      | object others =>
          cases fields with
          | nil =>
              cases others with
              | nil => exact ⟨rfl, List.append_cancel_left same⟩
              | cons other others => simp [print, printString] at same
          | cons field fields =>
              obtain ⟨key, value⟩ := field
              cases others with
              | nil => simp [print, printString] at same
              | cons other others =>
                  obtain ⟨otherKey, otherValue⟩ := other
                  simp only [print, List.cons_append, List.append_assoc, List.cons.injEq,
                    true_and] at same
                  obtain ⟨rfl, spelled⟩ := printString_append_inj same
                  obtain ⟨rfl, behind⟩ := print_append_inj value otherValue (ends_printFields _ _)
                    (ends_printFields _ _) (List.cons.inj spelled).2
                  obtain ⟨rfl, rest⟩ := printFields_append_inj fields others behind
                  exact ⟨rfl, rest⟩
      | bool value => cases value <;> cases kinds
      | _ => cases kinds

/-- The text of items determines them. -/
theorem printItems_append_inj : ∀ (left right : List Json) {leftRest rightRest : Bytes},
    printItems hex left ++ leftRest = printItems hex right ++ rightRest →
      left = right ∧ leftRest = rightRest := by
  intro left right leftRest rightRest same
  cases left with
  | nil =>
      cases right with
      | nil => exact ⟨rfl, List.append_cancel_left same⟩
      | cons other others => simp [printItems] at same
  | cons item items =>
      cases right with
      | nil => simp [printItems] at same
      | cons other others =>
          simp only [printItems, List.cons_append, List.append_assoc, List.cons.injEq,
            true_and] at same
          obtain ⟨rfl, behind⟩ := print_append_inj item other (ends_printItems _ _)
            (ends_printItems _ _) same
          obtain ⟨rfl, rest⟩ := printItems_append_inj items others behind
          exact ⟨rfl, rest⟩

/-- The text of fields determines them. -/
theorem printFields_append_inj : ∀ (left right : List (Bytes × Json)) {leftRest rightRest : Bytes},
    printFields hex left ++ leftRest = printFields hex right ++ rightRest →
      left = right ∧ leftRest = rightRest := by
  intro left right leftRest rightRest same
  cases left with
  | nil =>
      cases right with
      | nil => exact ⟨rfl, List.append_cancel_left same⟩
      | cons other others => simp [printFields] at same
  | cons field fields =>
      obtain ⟨key, value⟩ := field
      cases right with
      | nil => simp [printFields] at same
      | cons other others =>
          obtain ⟨otherKey, otherValue⟩ := other
          simp only [printFields, List.cons_append, List.append_assoc, List.cons.injEq,
            true_and] at same
          obtain ⟨rfl, spelled⟩ := printString_append_inj same
          obtain ⟨rfl, behind⟩ := print_append_inj value otherValue (ends_printFields _ _)
            (ends_printFields _ _) (List.cons.inj spelled).2
          obtain ⟨rfl, rest⟩ := printFields_append_inj fields others behind
          exact ⟨rfl, rest⟩

end

/-- The text of a document determines it. -/
theorem print_injective : Function.Injective (print hex) := by
  intro left right same
  exact (print_append_inj left right ends_nil ends_nil (by rw [same])).1

end JsonText
