import ArIoGateway.ByteRanges
import ArIoGateway.Foundation.Batches
import ArIoGateway.Foundation.Pieces
import Mathlib.Data.List.TakeWhile

/-!
# The grammar of byte ranges

A `range` header names the unit of bytes and lists its elements between commas, each with white space
around it.  Headers of this form are told apart from malformed ones, and those of which an element
selects a byte of the content from the unsatisfiable ones.
-/

namespace ArIoGateway

open Octets Pieces

/-- Spaces and tabs. -/
def OptionalWhiteSpace (text : List Char) : Prop := ∀ char ∈ text, char = ' ' ∨ char = '\t'

/-- A text of decimal digits and its number. -/
def Digits (text : List Char) (value : Nat) : Prop :=
  text ≠ [] ∧ (∀ digit ∈ text, digit.isDigit = true) ∧
    value = Nat.ofDigits 10 (text.reverse.map fun digit => digit.toNat - 48)

/-- The text of an element. -/
inductive RangeElement : List Char → RequestedRange → Prop
  | between {first last : List Char} {start finish : Nat} : Digits first start →
      Digits last finish → RangeElement (first ++ '-' :: last) (.between start finish)
  | starting {first : List Char} {start : Nat} : Digits first start →
      RangeElement (first ++ ['-']) (.starting start)
  | suffix {digits : List Char} {count : Nat} : Digits digits count →
      RangeElement ('-' :: digits) (.suffix count)

/-- White space around a text. -/
def Spaced (holds : List Char → Prop) (text : List Char) : Prop :=
  ∃ front core back, text = front ++ core ++ back ∧ OptionalWhiteSpace front ∧
    OptionalWhiteSpace back ∧ holds core

/-- The unit of bytes, in any case. -/
def BytesUnit (unit : List Char) : Prop := equalIgnoringCase unit "bytes".toList

/-- A unit, and the elements of a set of ranges between commas. -/
def RangeSet (isUnit : List Char → Prop) (text : List Char) (requests : List RequestedRange) :
    Prop :=
  ∃ unit values, isUnit unit ∧ values ≠ [] ∧ text = unit ++ '=' :: [','].intercalate values ∧
    List.Forall₂ (fun part requested => Spaced (RangeElement · requested) part) values requests

/-- The parts of a header between the commas after its unit. -/
def rangeParts (text : List Char) : List (List Char) :=
  match splitOnce '=' text with
  | none => []
  | some (_, rest) => rest.splitOn ','

/-- A number after a plus sign. -/
def SignedNumber (text : List Char) : Prop :=
  ∃ digits value, text = '+' :: digits ∧ Digits digits value

/-- A number that a machine word cannot hold. -/
def LargeNumber (text : List Char) : Prop := ∃ value, Digits text value ∧ 2 ^ 64 ≤ value

/-- Neither number of an element has a sign or is too large. -/
def PlainNumbers (element : List Char) : Prop :=
  ∀ start finish, splitOnce '-' element = some (start, finish) →
    ∀ number ∈ [start, finish], ¬SignedNumber number ∧ ¬LargeNumber number

/-- The characters of a readable header. -/
def Readable (text : List Char) : Prop :=
  ∀ char ∈ text, 32 ≤ char.toNat ∧ char.toNat < 127 ∨ char = '\t'

theorem readable_of_headerToStr {value : Bytes} {text : List Char}
    (read : headerToStr value = some text) : Readable text := by
  rw [headerToStr, Option.ite_none_right_eq_some] at read
  obtain ⟨visible, same⟩ := read
  obtain rfl := Option.some.inj same
  intro char member
  obtain ⟨byte, inside, rfl⟩ := List.mem_map.mp member
  rcases of_decide_eq_true (List.all_eq_true.mp visible byte inside) with ⟨low, high⟩ | rfl
  · have codes : ∀ code : Fin 128, (Char.ofNat code.val).toNat = code.val := by decide
    have code : (Char.ofNat byte.toNat).toNat = byte.toNat := codes ⟨byte.toNat, by omega⟩
    rw [code]
    exact .inl ⟨low, high⟩
  · exact .inr rfl

theorem isWhiteSpace_iff {char : Char}
    (readable : 32 ≤ char.toNat ∧ char.toNat < 127 ∨ char = '\t') :
    isWhiteSpace char = true ↔ char = ' ' ∨ char = '\t' := by
  constructor
  · intro space
    rcases readable with ⟨low, high⟩ | tab
    · rw [isWhiteSpace, decide_eq_true_eq] at space
      have code : char.toNat = 32 := by omega
      exact .inl (Char.toNat_inj.mp code)
    · exact .inr tab
  · rintro (rfl | rfl) <;> rfl

theorem dropWhile_append_of_all {α : Type} {holds : α → Bool} {front rest : List α}
    (all : ∀ value ∈ front, holds value = true) :
    (front ++ rest).dropWhile holds = rest.dropWhile holds := by
  induction front with
  | nil => rfl
  | cons value front induction =>
      obtain ⟨first, behind⟩ := List.forall_mem_cons.mp all
      rw [List.cons_append, List.dropWhile_cons, if_pos first, induction behind]

/-- Text without white space at its ends is what is left when white space around it is removed. -/
theorem trim_append {front core back : List Char}
    (frontSpace : ∀ char ∈ front, isWhiteSpace char = true)
    (backSpace : ∀ char ∈ back, isWhiteSpace char = true)
    (first : ∀ char ∈ core.head?, isWhiteSpace char = false)
    (last : ∀ char ∈ core.getLast?, isWhiteSpace char = false) (some : core ≠ []) :
    trim (front ++ core ++ back) = core := by
  have ahead : (core ++ back).dropWhile isWhiteSpace = core ++ back := by
    cases core with
    | nil => exact absurd rfl some
    | cons char core =>
        rw [List.cons_append, List.dropWhile_cons, if_neg]
        simp [first char rfl]
  have behind : core.reverse.dropWhile isWhiteSpace = core.reverse := by
    cases reversed : core.reverse with
    | nil => exact absurd (List.reverse_eq_nil_iff.mp reversed) some
    | cons char rest =>
        have ends : char ∈ core.getLast? := by
          rw [← List.head?_reverse, reversed]
          rfl
        rw [List.dropWhile_cons, if_neg]
        simp [last char ends]
  have reversedSpace : ∀ char ∈ back.reverse, isWhiteSpace char = true :=
    fun char member => backSpace char (List.mem_reverse.mp member)
  rw [trim, List.append_assoc, dropWhile_append_of_all frontSpace, ahead, List.reverse_append,
    dropWhile_append_of_all reversedSpace, behind, List.reverse_reverse]

/-- Text is what is left when the white space at its ends is removed, with this white space. -/
theorem exists_trim (text : List Char) : ∃ front back, text = front ++ trim text ++ back ∧
    (∀ char ∈ front, isWhiteSpace char = true) ∧ ∀ char ∈ back, isWhiteSpace char = true := by
  have split := @List.takeWhile_append_dropWhile _ isWhiteSpace text
  have behind :=
    @List.takeWhile_append_dropWhile _ isWhiteSpace (text.dropWhile isWhiteSpace).reverse
  refine ⟨text.takeWhile isWhiteSpace,
    ((text.dropWhile isWhiteSpace).reverse.takeWhile isWhiteSpace).reverse, ?_,
    fun char member => List.mem_takeWhile_imp member, fun char member => ?_⟩
  · rw [trim, List.append_assoc, ← List.reverse_append, behind, List.reverse_reverse, split]
  · exact List.mem_takeWhile_imp (List.mem_reverse.mp member)

theorem Readable.part {text part : List Char} (readable : Readable text)
    (inside : ∀ char ∈ part, char ∈ text) {char : Char} (member : char ∈ part) :
    isWhiteSpace char = true ↔ char = ' ' ∨ char = '\t' :=
  isWhiteSpace_iff (readable char (inside char member))

/-- In a readable text, white space around something that has none at its ends is what is trimmed. -/
theorem spaced_iff {holds : List Char → Prop} {text : List Char} (readable : Readable text)
    (solid : ∀ core, holds core → core ≠ [] ∧ (∀ char ∈ core.head?, isWhiteSpace char = false) ∧
      ∀ char ∈ core.getLast?, isWhiteSpace char = false) :
    Spaced holds text ↔ holds (trim text) := by
  constructor
  · rintro ⟨front, core, back, rfl, frontSpace, backSpace, held⟩
    obtain ⟨some, first, last⟩ := solid core held
    rw [trim_append _ _ first last some]
    · exact held
    · intro char member
      rcases frontSpace char member with rfl | rfl <;> rfl
    · intro char member
      rcases backSpace char member with rfl | rfl <;> rfl
  · intro held
    obtain ⟨front, back, whole, frontSpace, backSpace⟩ := exists_trim text
    refine ⟨front, trim text, back, whole, fun char member => ?_, fun char member => ?_, held⟩
    · refine (readable.part (fun other inside => ?_) member).mp (frontSpace char member)
      rw [whole]
      exact List.mem_append_left _ (List.mem_append_left _ inside)
    · refine (readable.part (fun other inside => ?_) member).mp (backSpace char member)
      rw [whole]
      exact List.mem_append_right _ inside

theorem isWhiteSpace_of_isDigit {char : Char} (digit : char.isDigit = true) :
    isWhiteSpace char = false := by
  rw [Char.isDigit_iff_toNat] at digit
  have zero : '0'.toNat = 48 := rfl
  have nine : '9'.toNat = 57 := rfl
  rw [isWhiteSpace, decide_eq_false_iff_not]
  omega

theorem Digits.of_all {text : List Char} {value : Nat}
    (written : (!text.isEmpty && text.all Char.isDigit) = true)
    (same : value = Nat.ofDigits 10 (text.reverse.map fun digit => digit.toNat - 48)) :
    Digits text value := by
  obtain ⟨some, all⟩ := Bool.and_eq_true_iff.mp written
  exact ⟨by simpa using some, List.all_eq_true.mp all, same⟩

theorem Digits.numeral {text : List Char} {value : Nat} (digits : Digits text value)
    (small : value < 2 ^ 64) : Numeral text value :=
  ⟨text, .inl rfl, digits.1, digits.2.1, digits.2.2, small⟩

theorem Numeral.digits {text : List Char} {value : Nat} (numeral : Numeral text value)
    (unsigned : ¬SignedNumber text) : Digits text value := by
  obtain ⟨digits, rfl | rfl, some, all, same, -⟩ := numeral
  · exact ⟨some, all, same⟩
  · exact absurd ⟨digits, value, rfl, some, all, same⟩ unsigned

theorem Digits.not_mem_dash {text : List Char} {value : Nat} (digits : Digits text value) :
    '-' ∉ text := fun member => absurd (digits.2.1 '-' member) (by decide)

/-- An element with plain numbers is one of the grammar exactly when the parser reads it. -/
theorem rangeElement_iff {element : List Char} {requested : RequestedRange}
    (plain : PlainNumbers element) :
    RangeElement element requested ↔ RangeText element requested := by
  constructor
  · intro inside
    cases inside with
    | @between first last start finish firstDigits lastDigits =>
        have numbers := plain first last (splitOnce_eq_some.mpr ⟨firstDigits.not_mem_dash, rfl⟩)
        have firstSmall : start < 2 ^ 64 := not_le.mp fun large =>
          (numbers first (by simp)).2 ⟨start, firstDigits, large⟩
        have lastSmall : finish < 2 ^ 64 := not_le.mp fun large =>
          (numbers last (by simp)).2 ⟨finish, lastDigits, large⟩
        exact .between (firstDigits.numeral firstSmall) (lastDigits.numeral lastSmall)
    | @starting first start firstDigits =>
        have numbers := plain first [] (splitOnce_eq_some.mpr ⟨firstDigits.not_mem_dash, rfl⟩)
        have small : start < 2 ^ 64 := not_le.mp fun large =>
          (numbers first (by simp)).2 ⟨start, firstDigits, large⟩
        exact .starting (firstDigits.numeral small)
    | @suffix digits count counted =>
        have numbers := plain [] digits (splitOnce_eq_some.mpr ⟨List.not_mem_nil, rfl⟩)
        have small : count < 2 ^ 64 := not_le.mp fun large =>
          (numbers digits (by simp)).2 ⟨count, counted, large⟩
        exact .suffix (counted.numeral small)
  · intro read
    cases read with
    | @between first last start finish firstNumeral lastNumeral =>
        have numbers := plain first last (splitOnce_eq_some.mpr ⟨firstNumeral.not_mem_dash, rfl⟩)
        exact .between (firstNumeral.digits (numbers first (by simp)).1)
          (lastNumeral.digits (numbers last (by simp)).1)
    | @starting first start firstNumeral =>
        have numbers := plain first [] (splitOnce_eq_some.mpr ⟨firstNumeral.not_mem_dash, rfl⟩)
        exact .starting (firstNumeral.digits (numbers first (by simp)).1)
    | @suffix digits count numeral =>
        have numbers := plain [] digits (splitOnce_eq_some.mpr ⟨List.not_mem_nil, rfl⟩)
        exact .suffix (numeral.digits (numbers digits (by simp)).1)

/-- An element has no white space at its ends. -/
theorem RangeElement.solid {element : List Char} {requested : RequestedRange}
    (inside : RangeElement element requested) :
    element ≠ [] ∧ (∀ char ∈ element.head?, isWhiteSpace char = false) ∧
      ∀ char ∈ element.getLast?, isWhiteSpace char = false := by
  have ends : ∀ {text : List Char} {value : Nat}, Digits text value → ∀ char ∈ text,
      isWhiteSpace char = false := fun digits char member =>
    isWhiteSpace_of_isDigit (digits.2.1 char member)
  have dash : isWhiteSpace '-' = false := rfl
  cases inside with
  | @between first last start finish firstDigits lastDigits =>
      refine ⟨by simp, fun char member => ?_, fun char member => ?_⟩
      · rw [List.head?_append_of_ne_nil _ firstDigits.1] at member
        exact ends firstDigits char (List.mem_of_mem_head? member)
      · rw [List.getLast?_append_cons, List.getLast?_cons_of_ne_nil lastDigits.1] at member
        exact ends lastDigits char (List.mem_of_mem_getLast? member)
  | @starting first start firstDigits =>
      refine ⟨by simp, fun char member => ?_, fun char member => ?_⟩
      · rw [List.head?_append_of_ne_nil _ firstDigits.1] at member
        exact ends firstDigits char (List.mem_of_mem_head? member)
      · rw [List.getLast?_append_cons] at member
        obtain rfl := Option.some.inj member
        exact dash
  | @suffix digits count counted =>
      refine ⟨by simp, fun char member => ?_, fun char member => ?_⟩
      · obtain rfl := Option.some.inj member
        exact dash
      · rw [List.getLast?_cons_of_ne_nil counted.1] at member
        exact ends counted char (List.mem_of_mem_getLast? member)

theorem parseByteRange_eq_malformed {value : List Char} {total : Nat} :
    parseByteRange value total = .error .malformed ↔ ¬∃ requested, RangeText value requested := by
  constructor
  · rintro malformed ⟨requested, text⟩
    rw [parseByteRange_of_text text] at malformed
    rcases requested.clip_cases total with ⟨range, clipped, -⟩ | ⟨clipped, -⟩
    · rw [clipped] at malformed
      contradiction
    · rw [clipped] at malformed
      contradiction
  · intro none
    exact (parseByteRange_cases value total).resolve_left none

/-- As many parts as are allowed are refused exactly when one of them is malformed. -/
theorem collectByteRanges_eq_error {total index : Nat} {values : List (List Char)}
    (fits : index + values.length ≤ maxByteRanges) {error : ByteRangeError} :
    collectByteRanges total index values = .error error ↔
      error = .malformed ∧ ∃ value ∈ values, ¬∃ requested, RangeText (trim value) requested := by
  induction values generalizing index with
  | nil => simp [collectByteRanges]
  | cons value values induction =>
      rw [List.length_cons] at fits
      have behind := @induction (index + 1) (by omega)
      rw [collectByteRanges_cons (by omega), List.exists_mem_cons_iff]
      rcases parseByteRange_cases (trim value) total with ⟨requested, text⟩ | malformed
      · have reads : ¬¬∃ requested, RangeText (trim value) requested :=
          not_not.mpr ⟨requested, text⟩
        rw [parseByteRange_of_text text, or_iff_right reads]
        rcases requested.clip_cases total with ⟨range, clipped, -⟩ | ⟨clipped, -⟩
        · rw [clipped, ← behind]
          cases collectByteRanges total (index + 1) values with
          | error other => simp [Functor.map, Except.map]
          | ok ranges => simp [Functor.map, Except.map]
        · rw [clipped]
          exact behind
      · rw [malformed]
        simp only [Except.error.injEq]
        rw [parseByteRange_eq_malformed] at malformed
        exact ⟨fun same => ⟨same.symm, .inl malformed⟩, fun both => both.1.symm⟩

theorem bytesUnit_solid (unit : List Char) (named : BytesUnit unit) :
    unit ≠ [] ∧ (∀ char ∈ unit.head?, isWhiteSpace char = false) ∧
      ∀ char ∈ unit.getLast?, isWhiteSpace char = false := by
  have letters : ∀ char ∈ unit, isWhiteSpace char = false := by
    intro char member
    have lower : char.toLower ∈ "bytes".toList.map Char.toLower := by
      rw [← named]
      exact List.mem_map_of_mem member
    cases space : isWhiteSpace char with
    | false => rfl
    | true =>
        have capital : ¬(65 ≤ char.toNat ∧ char.toNat ≤ 90) := by
          rw [isWhiteSpace, decide_eq_true_eq] at space
          omega
        have same : char.toLower = char := by
          rw [Char.toLower]
          refine dif_neg fun range => capital ?_
          have low := UInt32.le_iff_toNat_le.mp range.1
          have high := UInt32.le_iff_toNat_le.mp range.2
          exact ⟨low, high⟩
        have known : ("bytes".toList.map Char.toLower).all (fun other => !isWhiteSpace other) =
            true := by
          decide
        rw [same] at lower
        have solid : isWhiteSpace char = false := by
          simpa using List.all_eq_true.mp known char lower
        rw [solid] at space
        contradiction
  refine ⟨?_, fun char member => letters char (List.mem_of_mem_head? member),
    fun char member => letters char (List.mem_of_mem_getLast? member)⟩
  rintro rfl
  have empty : ¬equalIgnoringCase [] "bytes".toList := by decide
  exact empty named

theorem not_mem_of_spaced {holds : List Char → Prop} {text : List Char} {char : Char}
    (spaced : Spaced holds text) (solid : ¬(char = ' ' ∨ char = '\t'))
    (outside : ∀ core, holds core → char ∉ core) : char ∉ text := by
  obtain ⟨front, core, back, rfl, frontSpace, backSpace, held⟩ := spaced
  intro member
  rcases List.mem_append.mp member with inside | after
  · rcases List.mem_append.mp inside with before | inside
    · exact solid (frontSpace char before)
    · exact outside core held inside
  · exact solid (backSpace char after)

theorem BytesUnit.not_mem_equals {unit : List Char} (named : BytesUnit unit) : '=' ∉ unit := by
  intro member
  have lower : '='.toLower ∈ "bytes".toList.map Char.toLower := by
    rw [← named]
    exact List.mem_map_of_mem member
  exact absurd lower (by decide)

theorem RangeElement.digit_or_dash {element : List Char} {requested : RequestedRange}
    (inside : RangeElement element requested) {char : Char} (member : char ∈ element) :
    char.isDigit = true ∨ char = '-' := by
  cases inside with
  | between first last =>
      rcases List.mem_append.mp member with before | behind
      · exact .inl (first.2.1 char before)
      · rcases List.mem_cons.mp behind with dash | after
        · exact .inr dash
        · exact .inl (last.2.1 char after)
  | starting first =>
      rcases List.mem_append.mp member with before | dash
      · exact .inl (first.2.1 char before)
      · exact .inr (List.mem_singleton.mp dash)
  | suffix count =>
      rcases List.mem_cons.mp member with dash | after
      · exact .inr dash
      · exact .inl (count.2.1 char after)

theorem forall₂_congr_of_mem {α β : Type} {left right : α → β → Prop} {values : List α}
    {others : List β} (same : ∀ value ∈ values, ∀ other, left value other ↔ right value other) :
    List.Forall₂ left values others ↔ List.Forall₂ right values others := by
  induction values generalizing others with
  | nil => rw [List.forall₂_nil_left_iff, List.forall₂_nil_left_iff]
  | cons value values induction =>
      obtain ⟨first, behind⟩ := List.forall_mem_cons.mp same
      rw [List.forall₂_cons_left_iff, List.forall₂_cons_left_iff]
      refine exists_congr fun other => exists_congr fun rest => ?_
      rw [first, induction behind]

/-- A header that names the unit and whose parts are elements, as the parser takes it apart. -/
theorem rangeSet_iff {text : List Char} (readable : Readable text)
    (plain : ∀ part ∈ rangeParts text, PlainNumbers (trim part)) {requests : List RequestedRange} :
    RangeSet (Spaced BytesUnit) text requests ↔
      ∃ unit rest, splitOnce '=' text = some (unit, rest) ∧ BytesUnit (trim unit) ∧
        List.Forall₂ (fun part requested => RangeText (trim part) requested) (rest.splitOn ',')
          requests := by
  have elements : ∀ {unit rest}, splitOnce '=' text = some (unit, rest) →
      ∀ part ∈ rest.splitOn ',', Readable part ∧ PlainNumbers (trim part) := by
    intro unit rest split part member
    have parts : rangeParts text = rest.splitOn ',' := by rw [rangeParts, split]
    refine ⟨fun char inside => readable char ?_, plain part (by rwa [parts])⟩
    obtain ⟨-, whole⟩ := splitOnce_eq_some.mp split
    have joined := (splitOn_spec ',' rest).1
    rw [whole]
    refine List.mem_append_right _ (List.mem_cons_of_mem _ ?_)
    rw [← joined]
    exact mem_intercalate member inside
  have unitReadable : ∀ {unit rest}, splitOnce '=' text = some (unit, rest) → Readable unit := by
    intro unit rest split char inside
    obtain ⟨-, whole⟩ := splitOnce_eq_some.mp split
    rw [whole] at readable
    exact readable char (List.mem_append_left _ inside)
  have element : ∀ {part : List Char} {requested : RequestedRange}, Readable part →
      PlainNumbers (trim part) →
        (Spaced (RangeElement · requested) part ↔ RangeText (trim part) requested) :=
    fun partReadable numbers => (spaced_iff partReadable fun core inside => inside.solid).trans
      (rangeElement_iff numbers)
  constructor
  · rintro ⟨unit, values, named, some, whole, texts⟩
    have split : splitOnce '=' text = .some (unit, [','].intercalate values) :=
      splitOnce_eq_some.mpr
        ⟨not_mem_of_spaced named (by decide) fun core held => held.not_mem_equals, whole⟩
    have separate : ∀ part ∈ values, ',' ∉ part := by
      intro part member
      obtain ⟨requested, -, spaced⟩ := Batches.exists_of_mem_left texts member
      exact not_mem_of_spaced spaced (by decide) fun core inside comma =>
        absurd (inside.digit_or_dash comma) (by decide)
    have parts := List.splitOn_intercalate ',' separate some
    have known := elements split
    rw [parts] at known
    refine ⟨unit, _, split, (spaced_iff (unitReadable split) bytesUnit_solid).mp named, ?_⟩
    rw [parts]
    exact (forall₂_congr_of_mem fun part member requested =>
      element (known part member).1 (known part member).2).mp texts
  · rintro ⟨unit, rest, split, named, texts⟩
    obtain ⟨-, whole⟩ := splitOnce_eq_some.mp split
    refine ⟨unit, rest.splitOn ',', ?_, List.splitOn_ne_nil _ _, ?_, ?_⟩
    · exact (spaced_iff (unitReadable split) bytesUnit_solid).mpr named
    · rw [(splitOn_spec ',' rest).1]
      exact whole
    · exact (forall₂_congr_of_mem fun part member requested =>
        element (elements split part member).1 (elements split part member).2).mpr texts

theorem exists_intersections (total : Nat) (requests : List RequestedRange) :
    ∃ ranges, Intersections total requests ranges := by
  induction requests with
  | nil => exact ⟨[], .nil⟩
  | cons requested requests induction =>
      obtain ⟨ranges, behind⟩ := induction
      rcases requested.clip_cases total with ⟨range, -, met⟩ | ⟨-, missed⟩
      · exact ⟨range :: ranges, .meets met behind⟩
      · exact ⟨ranges, .misses missed behind⟩

theorem Intersections.eq_nil_iff {total : Nat} {requests : List RequestedRange}
    {ranges : List (Nat × Nat)} (intersections : Intersections total requests ranges) :
    ranges = [] ↔ ∀ byte < total, ∀ requested ∈ requests, ¬requested.Asks total byte := by
  constructor
  · rintro rfl byte inside requested member asked
    obtain ⟨range, none, -⟩ :=
      (intersections.exists_iff byte).mpr ⟨inside, requested, member, asked⟩
    exact absurd none List.not_mem_nil
  · intro missed
    cases ranges with
    | nil => rfl
    | cons range ranges =>
        obtain ⟨ordered, -⟩ := intersections.bounded range List.mem_cons_self
        obtain ⟨inside, requested, member, asked⟩ := (intersections.exists_iff range.1).mp
          ⟨range, List.mem_cons_self, le_rfl, ordered⟩
        exact absurd asked (missed range.1 inside requested member)

/-- A header of the grammar is parsed to the intersections of its elements with the content. -/
theorem parseByteRanges_of_texts {text unit rest : List Char} {requests : List RequestedRange}
    {total : Nat} {ranges : List (Nat × Nat)}
    (short : (String.ofList text).utf8ByteSize ≤ maxRangeHeaderBytes)
    (split : splitOnce '=' text = some (unit, rest)) (named : BytesUnit (trim unit))
    (few : (rest.splitOn ',').length ≤ maxByteRanges)
    (texts : List.Forall₂ (fun part requested => RangeText (trim part) requested)
      (rest.splitOn ',') requests) (intersections : Intersections total requests ranges) :
    parseByteRanges text total = if ranges = [] then .error .unsatisfiable else .ok ranges := by
  rw [parseByteRanges, if_neg (not_lt.mpr short), split]
  simp only
  have unit : ¬¬equalIgnoringCase (trim unit) "bytes".toList := not_not.mpr named
  rw [if_neg unit,
    collectByteRanges_of_requests (by rwa [Nat.zero_add]) texts intersections]
  rfl

/-- A header of another form is malformed. -/
theorem parseByteRanges_eq_malformed {text : List Char} {total : Nat}
    (few : (rangeParts text).length ≤ maxByteRanges)
    (none : ¬∃ unit rest requests, splitOnce '=' text = some (unit, rest) ∧ BytesUnit (trim unit) ∧
      List.Forall₂ (fun part requested => RangeText (trim part) requested) (rest.splitOn ',')
        requests) : parseByteRanges text total = .error .malformed := by
  rw [parseByteRanges]
  split
  · rfl
  · cases split : splitOnce '=' text with
    | none => rfl
    | some pair =>
        obtain ⟨unit, rest⟩ := pair
        simp only
        rw [rangeParts, split] at few
        by_cases named : equalIgnoringCase (trim unit) "bytes".toList
        · rw [if_neg (not_not.mpr named)]
          cases collected : collectByteRanges total 0 (rest.splitOn ',') with
          | error error =>
              obtain ⟨rfl, -⟩ :=
                (collectByteRanges_eq_error (by rwa [Nat.zero_add])).mp collected
              rfl
          | ok ranges =>
              obtain ⟨-, requests, texts, -⟩ :=
                requests_of_collectByteRanges (Nat.zero_le _) collected
              exact absurd ⟨unit, rest, requests, split, named, texts⟩ none
        · rw [if_pos named]

/-- A readable header within the limits, with plain numbers, is malformed exactly when it is not a
set of ranges in the unit of bytes, and else unsatisfiable exactly when no element selects a byte of
the content. -/
theorem range_grammar {header : Bytes} {text : List Char} (read : headerToStr header = some text)
    (short : (String.ofList text).utf8ByteSize ≤ maxRangeHeaderBytes)
    (few : (rangeParts text).length ≤ maxByteRanges)
    (plain : ∀ part ∈ rangeParts text, PlainNumbers (trim part)) (total : Nat) :
    (parseByteRanges text total = .error .malformed ↔
      ¬∃ requests, RangeSet (Spaced BytesUnit) text requests) ∧
    ∀ requests, RangeSet (Spaced BytesUnit) text requests →
      (parseByteRanges text total = .error .unsatisfiable ↔
        ∀ byte < total, ∀ requested ∈ requests, ¬requested.Asks total byte) ∧
      ∀ ranges, parseByteRanges text total = .ok ranges → Intersections total requests ranges := by
  have readable := readable_of_headerToStr read
  have outcome : ∀ requests, RangeSet (Spaced BytesUnit) text requests →
      ∃ ranges, Intersections total requests ranges ∧
        parseByteRanges text total =
          if ranges = [] then .error .unsatisfiable else .ok ranges := by
    intro requests inside
    obtain ⟨unit, rest, split, named, texts⟩ := (rangeSet_iff readable plain).mp inside
    obtain ⟨ranges, intersections⟩ := exists_intersections total requests
    rw [rangeParts, split] at few
    exact ⟨ranges, intersections, parseByteRanges_of_texts short split named few texts intersections⟩
  refine ⟨⟨?_, fun none => ?_⟩, fun requests inside => ?_⟩
  · rintro malformed ⟨requests, inside⟩
    obtain ⟨ranges, -, parsed⟩ := outcome requests inside
    rw [parsed] at malformed
    split at malformed <;> contradiction
  · refine parseByteRanges_eq_malformed few ?_
    rintro ⟨unit, rest, requests, found⟩
    exact none ⟨requests, (rangeSet_iff readable plain).mpr ⟨unit, rest, found⟩⟩
  · obtain ⟨ranges, intersections, parsed⟩ := outcome requests inside
    rw [parsed, ← intersections.eq_nil_iff]
    by_cases empty : ranges = []
    · rw [if_pos empty]
      exact ⟨iff_of_true rfl empty, fun others same => by contradiction⟩
    · rw [if_neg empty]
      refine ⟨iff_of_false (by simp) empty, fun others same => ?_⟩
      rwa [← Except.ok.inj same]

theorem Digits.lt_of_length {text : List Char} {value : Nat} (digits : Digits text value)
    (short : text.length ≤ 19) : value < 2 ^ 64 := by
  have below : value < 10 ^ text.length := by
    rw [digits.2.2]
    have small : ∀ digit ∈ text.reverse.map fun digit => digit.toNat - 48, digit < 10 := by
      intro digit member
      obtain ⟨char, inside, rfl⟩ := List.mem_map.mp member
      have numeric := digits.2.1 char (List.mem_reverse.mp inside)
      rw [Char.isDigit_iff_toNat] at numeric
      have nine : '9'.toNat = 57 := rfl
      omega
    have bound := Nat.ofDigits_lt_base_pow_length (by decide) small
    rwa [List.length_map, List.length_reverse] at bound
  exact below.trans_le ((Nat.pow_le_pow_right (by decide) short).trans (by decide))

theorem plainNumbers_of {element start finish : List Char}
    (split : splitOnce '-' element = some (start, finish)) (short : element.length ≤ 19)
    (unsigned : '+' ∉ element) : PlainNumbers element := by
  intro first last found number member
  obtain ⟨rfl, rfl⟩ := Prod.mk.inj (Option.some.inj (split.symm.trans found))
  obtain ⟨-, rfl⟩ := splitOnce_eq_some.mp split
  have part : number ⊆ start ++ '-' :: finish ∧ number.length ≤ (start ++ '-' :: finish).length := by
    rcases List.mem_cons.mp member with rfl | later
    · exact ⟨List.subset_append_left _ _, (List.sublist_append_left _ _).length_le⟩
    · obtain rfl := List.mem_singleton.mp later
      have behind := (List.sublist_cons_self '-' number).trans (List.sublist_append_right start _)
      exact ⟨behind.subset, behind.length_le⟩
  constructor
  · rintro ⟨digits, value, rfl, -⟩
    exact unsigned (part.1 List.mem_cons_self)
  · rintro ⟨value, digits, large⟩
    exact absurd (digits.lt_of_length (part.2.trans short)) (not_lt.mpr large)

theorem range_grammar_sample :
    parseByteRanges "BYTES= 7-9 ,\t-0".toList 5 = .error .unsatisfiable := by
  have parts : rangeParts "BYTES= 7-9 ,\t-0".toList = [" 7-9 ".toList, "\t-0".toList] := by
    decide
  have plain : ∀ part ∈ rangeParts "BYTES= 7-9 ,\t-0".toList, PlainNumbers (trim part) := by
    rw [parts]
    intro part member
    rcases List.mem_pair.mp member with rfl | rfl
    · exact @plainNumbers_of _ ['7'] ['9'] rfl (by decide) (by decide)
    · exact @plainNumbers_of _ [] ['0'] rfl (by decide) (by decide)
  have inside : RangeSet (Spaced BytesUnit) "BYTES= 7-9 ,\t-0".toList
      [.between 7 9, .suffix 0] := by
    refine ⟨"BYTES".toList, [" 7-9 ".toList, "\t-0".toList], ?_, by decide, rfl, ?_⟩
    · exact ⟨[], "BYTES".toList, [], rfl, by simp [OptionalWhiteSpace],
        by simp [OptionalWhiteSpace], by rfl⟩
    · refine .cons ⟨[' '], "7-9".toList, [' '], rfl, by simp [OptionalWhiteSpace],
        by simp [OptionalWhiteSpace], ?_⟩ (.cons ⟨['\t'], "-0".toList, [], rfl,
          by simp [OptionalWhiteSpace], by simp [OptionalWhiteSpace], ?_⟩ .nil)
      · exact @RangeElement.between ['7'] ['9'] 7 9 (Digits.of_all (by decide) rfl)
          (Digits.of_all (by decide) rfl)
      · exact @RangeElement.suffix ['0'] 0 (Digits.of_all (by decide) rfl)
  refine ((@range_grammar ("BYTES= 7-9 ,\t-0".toList.map fun char => UInt8.ofNat char.toNat)
    "BYTES= 7-9 ,\t-0".toList ?_ (by decide) (by decide) plain 5).2 _ inside).1.mpr ?_
  · rfl
  · intro byte small requested member asked
    rcases List.mem_pair.mp member with rfl | rfl
    · obtain ⟨low, -⟩ := asked
      omega
    · have low : 5 ≤ byte + 0 := asked
      omega

/-- The unit of bytes with a space behind it, a number with a sign and one that is too large are not
read as the grammar has them. -/
theorem not_range_grammar :
    (parseByteRanges "bytes =0-1".toList 5 ≠ .error .malformed ∧
      ¬∃ requests, RangeSet BytesUnit "bytes =0-1".toList requests) ∧
    (parseByteRanges "bytes=+0-1".toList 5 ≠ .error .malformed ∧
      ¬∃ requests, RangeSet BytesUnit "bytes=+0-1".toList requests) ∧
    parseByteRanges "bytes=0-18446744073709551616".toList 5 = .error .malformed ∧
      ∃ requests, RangeSet BytesUnit "bytes=0-18446744073709551616".toList requests := by
  refine ⟨⟨by decide, ?_⟩, ⟨by decide, ?_⟩, by decide, ?_⟩
  · rintro ⟨requests, unit, values, named, -, whole, -⟩
    have split := splitOnce_eq_some.mpr ⟨named.not_mem_equals, whole⟩
    have parts : splitOnce '=' "bytes =0-1".toList = some ("bytes ".toList, "0-1".toList) := rfl
    obtain ⟨rfl, -⟩ := Prod.mk.inj (Option.some.inj (parts.symm.trans split))
    have other : ¬equalIgnoringCase "bytes ".toList "bytes".toList := by decide
    exact other named
  · rintro ⟨requests, unit, values, named, -, whole, texts⟩
    have parts : splitOnce '=' "bytes=+0-1".toList = some ("bytes".toList, "+0-1".toList) := rfl
    have split := splitOnce_eq_some.mpr ⟨named.not_mem_equals, whole⟩
    obtain ⟨-, joined⟩ := Prod.mk.inj (Option.some.inj (parts.symm.trans split))
    have plus : '+' ∈ [','].intercalate values := by
      rw [← joined]
      decide
    obtain ⟨part, member, inside⟩ := mem_of_mem_intercalate plus (by decide)
    obtain ⟨requested, -, spaced⟩ := Batches.exists_of_mem_left texts member
    refine not_mem_of_spaced spaced (by decide) (fun core element there => ?_) inside
    exact absurd (element.digit_or_dash there) (by decide)
  · refine ⟨[.between 0 18446744073709551616], "bytes".toList,
      ["0-18446744073709551616".toList], rfl, by decide, rfl, .cons ?_ .nil⟩
    refine ⟨[], "0-18446744073709551616".toList, [], rfl, by simp [OptionalWhiteSpace],
      by simp [OptionalWhiteSpace], ?_⟩
    exact @RangeElement.between ['0'] "18446744073709551616".toList 0 18446744073709551616
      (Digits.of_all (by decide) rfl) (Digits.of_all (by decide) rfl)

end ArIoGateway
