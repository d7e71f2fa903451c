import ArIoGateway.Foundation.Octets
import Mathlib.Data.List.Forall2
import Mathlib.Data.Nat.Digits.Defs

/-!
# Byte ranges of a request

The `range` header of a request asks for parts of a content by their first and last byte, from a
byte on, or as the last bytes.  An accepted header gives for each part that meets the content their
intersection, in the order of the header.
-/

namespace ArIoGateway

open Octets

def maxRangeHeaderBytes : Nat := 8 * 1024
def maxByteRanges : Nat := 16

inductive ByteRangeError where
  | malformed
  | unsatisfiable
deriving DecidableEq

/-- The text of a header value of visible ASCII and tabs, `to_str`. -/
def headerToStr (value : Bytes) : Option (List Char) :=
  if value.all fun byte => 32 ≤ byte.toNat ∧ byte.toNat < 127 ∨ byte = 9 then
    some (value.map fun byte => Char.ofNat byte.toNat)
  else none

/-- The characters that `str::trim` removes. -/
def isWhiteSpace (char : Char) : Bool :=
  let code := char.toNat
  (9 ≤ code ∧ code ≤ 13) ∨ code = 0x20 ∨ code = 0x85 ∨ code = 0xA0 ∨ code = 0x1680 ∨
    (0x2000 ≤ code ∧ code ≤ 0x200A) ∨ code = 0x2028 ∨ code = 0x2029 ∨ code = 0x202F ∨
    code = 0x205F ∨ code = 0x3000

/-- Text without the white space at its ends. -/
def trim (text : List Char) : List Char :=
  ((text.dropWhile isWhiteSpace).reverse.dropWhile isWhiteSpace).reverse

def equalIgnoringCase (left right : List Char) : Prop :=
  left.map Char.toLower = right.map Char.toLower

instance (left right : List Char) : Decidable (equalIgnoringCase left right) :=
  inferInstanceAs (Decidable (_ = _))

/-- The text before and after the first separator. -/
def splitOnce (separator : Char) : List Char → Option (List Char × List Char)
  | [] => none
  | char :: text =>
      if char = separator then some ([], text)
      else (splitOnce separator text).map fun (front, rest) => (char :: front, rest)

/-- The number of a text of decimal digits. -/
def ofDigitText (digits : List Char) : Nat :=
  digits.foldl (fun value digit => value * 10 + (digit.toNat - 48)) 0

/-- The number of a text of decimal digits, when a `usize` holds it. -/
def parseDigits (digits : List Char) : Option Nat :=
  if digits ≠ [] ∧ digits.all Char.isDigit = true ∧ ofDigitText digits < 2 ^ 64 then
    some (ofDigitText digits)
  else none

/-- Read a `usize` as `str::parse` does, with an optional plus sign. -/
def parseUsize (text : List Char) : Option Nat :=
  match text with
  | '+' :: digits => parseDigits digits
  | digits => parseDigits digits

def usesByteRange (header : Option Bytes) : Bool :=
  match header with
  | none => false
  | some value =>
      match headerToStr value with
      | none => true
      | some text =>
          match splitOnce '=' text with
          | none => true
          | some (unit, _) => trim unit = [] ∨ equalIgnoringCase (trim unit) "bytes".toList

def orMalformed (value : Option Nat) : Except ByteRangeError Nat :=
  match value with
  | some number => .ok number
  | none => .error .malformed

def parseByteRange (value : List Char) (total : Nat) : Except ByteRangeError (Nat × Nat) :=
  match splitOnce '-' value with
  | none => .error .malformed
  | some (start, finish) =>
      if start = [] then do
        let suffix ← orMalformed (parseUsize finish)
        if suffix = 0 ∨ total = 0 then .error .unsatisfiable else .ok (total - suffix, total - 1)
      else do
        let first ← orMalformed (parseUsize start)
        let last ← (if finish = [] then .ok (total - 1) else orMalformed (parseUsize finish))
        if total = 0 ∨ total ≤ first ∨ last < first then .error .unsatisfiable
        else .ok (first, min last (total - 1))

/-- The loop over the parts of a header, from the part with this index on. -/
def collectByteRanges (total : Nat) :
    (index : Nat) → List (List Char) → Except ByteRangeError (List (Nat × Nat))
  | _, [] => .ok []
  | index, value :: values =>
      if index = maxByteRanges then .error .unsatisfiable
      else
        match parseByteRange (trim value) total with
        | .ok range => do
            let ranges ← collectByteRanges total (index + 1) values
            .ok (range :: ranges)
        | .error .unsatisfiable => collectByteRanges total (index + 1) values
        | .error error => .error error

def parseByteRanges (value : List Char) (total : Nat) : Except ByteRangeError (List (Nat × Nat)) :=
  if maxRangeHeaderBytes < (String.ofList value).utf8ByteSize then .error .malformed
  else
    match splitOnce '=' value with
    | none => .error .malformed
    | some (unit, value) =>
        if ¬equalIgnoringCase (trim unit) "bytes".toList then .error .malformed
        else do
          let ranges ← collectByteRanges total 0 (value.splitOn ',')
          if ranges = [] then .error .unsatisfiable else .ok ranges

/-- A text of decimal digits, possibly after a plus sign, and its number. -/
def Numeral (text : List Char) (value : Nat) : Prop :=
  ∃ digits, (text = digits ∨ text = '+' :: digits) ∧ digits ≠ [] ∧
    (∀ digit ∈ digits, digit.isDigit = true) ∧
    value = Nat.ofDigits 10 (digits.reverse.map fun digit => digit.toNat - 48) ∧ value < 2 ^ 64

/-- A requested part: the bytes between two, from one on, or the last ones. -/
inductive RequestedRange where
  | between (first last : Nat)
  | starting (first : Nat)
  | suffix (count : Nat)

/-- The bytes of a content of length `total` that a part asks for. -/
def RequestedRange.Asks (total : Nat) : RequestedRange → Nat → Prop
  | .between first last, byte => first ≤ byte ∧ byte ≤ last
  | .starting first, byte => first ≤ byte
  | .suffix count, byte => total ≤ byte + count

/-- The text of a requested part. -/
inductive RangeText : List Char → RequestedRange → Prop
  | between {first last : List Char} {start finish : Nat} : Numeral first start →
      Numeral last finish → RangeText (first ++ '-' :: last) (.between start finish)
  | starting {first : List Char} {start : Nat} : Numeral first start →
      RangeText (first ++ ['-']) (.starting start)
  | suffix {digits : List Char} {count : Nat} : Numeral digits count →
      RangeText ('-' :: digits) (.suffix count)

/-- A range holds exactly the bytes of the content that a part asks for. -/
structure RequestedRange.Meets (total : Nat) (requested : RequestedRange) (range : Nat × Nat) :
    Prop where
  ordered : range.1 ≤ range.2
  inside : range.2 < total
  exact : ∀ byte, range.1 ≤ byte ∧ byte ≤ range.2 ↔ byte < total ∧ requested.Asks total byte

/-- The intersections of requested parts with a content, in order, without the empty ones. -/
inductive Intersections (total : Nat) : List RequestedRange → List (Nat × Nat) → Prop
  | nil : Intersections total [] []
  | meets {requested : RequestedRange} {range : Nat × Nat} {requests : List RequestedRange}
      {ranges : List (Nat × Nat)} : requested.Meets total range →
      Intersections total requests ranges →
      Intersections total (requested :: requests) (range :: ranges)
  | misses {requested : RequestedRange} {requests : List RequestedRange}
      {ranges : List (Nat × Nat)} : (∀ byte < total, ¬requested.Asks total byte) →
      Intersections total requests ranges → Intersections total (requested :: requests) ranges

theorem Intersections.bounded {total : Nat} {requests : List RequestedRange}
    {ranges : List (Nat × Nat)} (intersections : Intersections total requests ranges) :
    ∀ range ∈ ranges, range.1 ≤ range.2 ∧ range.2 < total := by
  induction intersections with
  | nil => simp
  | meets met _ induction => exact List.forall_mem_cons.mpr ⟨⟨met.ordered, met.inside⟩, induction⟩
  | misses _ _ induction => exact induction

/-- The ranges together hold the bytes of the content that some part asks for. -/
theorem Intersections.exists_iff {total : Nat} {requests : List RequestedRange}
    {ranges : List (Nat × Nat)} (intersections : Intersections total requests ranges) (byte : Nat) :
    (∃ range ∈ ranges, range.1 ≤ byte ∧ byte ≤ range.2) ↔
      byte < total ∧ ∃ requested ∈ requests, requested.Asks total byte := by
  induction intersections with
  | nil => simp
  | meets met _ induction =>
      rw [List.exists_mem_cons_iff, List.exists_mem_cons_iff, met.exact, induction]
      exact and_or_left.symm
  | misses missed _ induction =>
      rw [List.exists_mem_cons_iff, induction]
      constructor
      · rintro ⟨inside, asked⟩
        exact ⟨inside, .inr asked⟩
      · rintro ⟨inside, asked | asked⟩
        · exact absurd asked (missed byte inside)
        · exact ⟨inside, asked⟩

theorem ofDigitText_eq (digits : List Char) :
    ofDigitText digits = Nat.ofDigits 10 (digits.reverse.map fun digit => digit.toNat - 48) := by
  rw [ofDigitText, ← List.foldr_reverse]
  induction digits.reverse with
  | nil => rfl
  | cons digit digits induction =>
      rw [List.foldr_cons, induction, List.map_cons, Nat.ofDigits_cons, Nat.add_comm, Nat.mul_comm]

theorem parseDigits_eq_some {digits : List Char} {value : Nat} :
    parseDigits digits = some value ↔
      digits ≠ [] ∧ (∀ digit ∈ digits, digit.isDigit = true) ∧
        value = Nat.ofDigits 10 (digits.reverse.map fun digit => digit.toNat - 48) ∧
        value < 2 ^ 64 := by
  rw [parseDigits, Option.ite_none_right_eq_some, Option.some.injEq, List.all_eq_true,
    ← ofDigitText_eq]
  constructor
  · rintro ⟨⟨some, numeric, small⟩, rfl⟩
    exact ⟨some, numeric, rfl, small⟩
  · rintro ⟨some, numeric, rfl, small⟩
    exact ⟨⟨some, numeric, small⟩, rfl⟩

theorem parseUsize_eq_some {text : List Char} {value : Nat} :
    parseUsize text = some value ↔ Numeral text value := by
  rw [parseUsize.eq_def]
  split
  · next rest =>
      rw [parseDigits_eq_some]
      constructor
      · intro read
        exact ⟨rest, .inr rfl, read⟩
      · rintro ⟨digits, same | same, read⟩
        · have plus : Char.isDigit '+' = true := read.2.1 '+' (same ▸ List.mem_cons_self)
          exact absurd plus (by decide)
        · rw [List.cons.inj same |>.2]
          exact read
  · next unsigned =>
      rw [parseDigits_eq_some]
      constructor
      · intro read
        exact ⟨text, .inl rfl, read⟩
      · rintro ⟨digits, rfl | same, read⟩
        · exact read
        · exact absurd same (unsigned digits)

theorem Numeral.ne_nil {text : List Char} {value : Nat} (numeral : Numeral text value) :
    text ≠ [] := by
  obtain ⟨digits, rfl | rfl, some, -⟩ := numeral
  · exact some
  · exact List.cons_ne_nil _ _

theorem Numeral.not_mem_dash {text : List Char} {value : Nat} (numeral : Numeral text value) :
    '-' ∉ text := by
  obtain ⟨digits, same, -, numeric, -⟩ := numeral
  have plain : '-' ∉ digits := fun member => absurd (numeric '-' member) (by decide)
  rcases same with rfl | rfl
  · exact plain
  · exact List.not_mem_cons_of_ne_of_not_mem (by decide) plain

theorem splitOnce_eq_some {separator : Char} {text front rest : List Char} :
    splitOnce separator text = some (front, rest) ↔
      separator ∉ front ∧ text = front ++ separator :: rest := by
  induction text generalizing front with
  | nil => simp [splitOnce]
  | cons char text induction =>
      rw [splitOnce]
      split
      · next same =>
          subst same
          rw [Option.some.injEq, Prod.mk.injEq]
          constructor
          · rintro ⟨rfl, rfl⟩
            exact ⟨List.not_mem_nil, rfl⟩
          · rintro ⟨plain, whole⟩
            cases front with
            | nil => exact ⟨rfl, (List.cons.inj whole).2⟩
            | cons first front =>
                obtain rfl := (List.cons.inj whole).1
                exact absurd List.mem_cons_self plain
      · next other =>
          rw [Option.map_eq_some_iff]
          constructor
          · rintro ⟨⟨before, after⟩, found, same⟩
            obtain ⟨rfl, rfl⟩ := Prod.mk.inj same
            obtain ⟨plain, rfl⟩ := induction.mp found
            exact ⟨List.not_mem_cons_of_ne_of_not_mem (Ne.symm other) plain, rfl⟩
          · rintro ⟨plain, whole⟩
            cases front with
            | nil => exact absurd (List.cons.inj whole).1 other
            | cons first front =>
                obtain ⟨rfl, rfl⟩ := List.cons.inj whole
                have behind : separator ∉ front := fun member =>
                  plain (List.mem_cons_of_mem _ member)
                exact ⟨(front, rest), induction.mpr ⟨behind, rfl⟩, rfl⟩

theorem splitOn_spec (separator : Char) (text : List Char) :
    [separator].intercalate (text.splitOn separator) = text ∧
      ∀ part ∈ text.splitOn separator, separator ∉ part := by
  refine ⟨List.intercalate_splitOn separator, ?_⟩
  induction text with
  | nil => simp
  | cons char text induction =>
      rw [List.splitOn_cons_eq_if_modifyHead]
      split
      · exact List.forall_mem_cons.mpr ⟨List.not_mem_nil, induction⟩
      · next other =>
          cases parts : text.splitOn separator with
          | nil => exact absurd parts (List.splitOn_ne_nil separator text)
          | cons part parts' =>
              rw [parts] at induction
              obtain ⟨plain, behind⟩ := List.forall_mem_cons.mp induction
              refine List.forall_mem_cons.mpr ⟨?_, behind⟩
              exact List.not_mem_cons_of_ne_of_not_mem (fun same => other (by simp [same])) plain

/-- The intersection of a requested part with a content, as the parser computes it. -/
def RequestedRange.clip (total : Nat) : RequestedRange → Except ByteRangeError (Nat × Nat)
  | .between first last =>
      if total = 0 ∨ total ≤ first ∨ last < first then .error .unsatisfiable
      else .ok (first, min last (total - 1))
  | .starting first =>
      if total = 0 ∨ total ≤ first ∨ total - 1 < first then .error .unsatisfiable
      else .ok (first, min (total - 1) (total - 1))
  | .suffix count =>
      if count = 0 ∨ total = 0 then .error .unsatisfiable else .ok (total - count, total - 1)

theorem RequestedRange.Meets.unique {total : Nat} {requested : RequestedRange}
    {range other : Nat × Nat} (first : requested.Meets total range)
    (second : requested.Meets total other) : range = other := by
  have same (byte : Nat) : range.1 ≤ byte ∧ byte ≤ range.2 ↔ other.1 ≤ byte ∧ byte ≤ other.2 :=
    (first.exact byte).trans (second.exact byte).symm
  have low := (same range.1).mp ⟨le_rfl, first.ordered⟩
  have high := (same range.2).mp ⟨first.ordered, le_rfl⟩
  have lower := (same other.1).mpr ⟨le_rfl, second.ordered⟩
  have higher := (same other.2).mpr ⟨second.ordered, le_rfl⟩
  exact Prod.ext (by omega) (by omega)

theorem RequestedRange.Meets.not_misses {total : Nat} {requested : RequestedRange}
    {range : Nat × Nat} (met : requested.Meets total range) :
    ¬∀ byte < total, ¬requested.Asks total byte := by
  intro missed
  obtain ⟨inside, asked⟩ := (met.exact range.1).mp ⟨le_rfl, met.ordered⟩
  exact missed range.1 inside asked

theorem RequestedRange.clip_cases (total : Nat) (requested : RequestedRange) :
    (∃ range, requested.clip total = .ok range ∧ requested.Meets total range) ∨
      requested.clip total = .error .unsatisfiable ∧
        ∀ byte < total, ¬requested.Asks total byte := by
  cases requested with
  | between first last =>
      rw [clip]
      split
      · refine .inr ⟨rfl, fun byte inside asked => ?_⟩
        obtain ⟨low, high⟩ := asked
        omega
      · refine .inl ⟨_, rfl, ?_, ?_, fun byte => ?_⟩ <;> simp only [Asks] <;> omega
  | starting first =>
      rw [clip]
      split
      · refine .inr ⟨rfl, fun byte inside asked => ?_⟩
        have low : first ≤ byte := asked
        omega
      · refine .inl ⟨_, rfl, ?_, ?_, fun byte => ?_⟩ <;> simp only [Asks] <;> omega
  | suffix count =>
      rw [clip]
      split
      · refine .inr ⟨rfl, fun byte inside asked => ?_⟩
        have low : total ≤ byte + count := asked
        omega
      · refine .inl ⟨_, rfl, ?_, ?_, fun byte => ?_⟩ <;> simp only [Asks] <;> omega

theorem parseByteRange_of_text {value : List Char} {requested : RequestedRange}
    (text : RangeText value requested) (total : Nat) :
    parseByteRange value total = requested.clip total := by
  cases text with
  | between first last =>
      rw [parseByteRange, splitOnce_eq_some.mpr ⟨first.not_mem_dash, rfl⟩]
      simp only [if_neg first.ne_nil, if_neg last.ne_nil, parseUsize_eq_some.mpr first,
        parseUsize_eq_some.mpr last, orMalformed]
      rfl
  | starting first =>
      rw [parseByteRange, splitOnce_eq_some.mpr ⟨first.not_mem_dash, rfl⟩]
      simp only [if_neg first.ne_nil, parseUsize_eq_some.mpr first, orMalformed, if_true]
      rfl
  | @suffix digits _ count =>
      have parts : splitOnce '-' ('-' :: digits) = some ([], digits) :=
        splitOnce_eq_some.mpr ⟨List.not_mem_nil, rfl⟩
      rw [parseByteRange, parts]
      simp only [parseUsize_eq_some.mpr count, orMalformed, if_true]
      rfl

theorem parseByteRange_cases (value : List Char) (total : Nat) :
    (∃ requested, RangeText value requested) ∨ parseByteRange value total = .error .malformed := by
  rw [parseByteRange]
  cases parts : splitOnce '-' value with
  | none => exact .inr rfl
  | some pair =>
      obtain ⟨start, finish⟩ := pair
      obtain ⟨plain, rfl⟩ := splitOnce_eq_some.mp parts
      simp only
      split
      · next empty =>
          subst empty
          cases read : parseUsize finish with
          | none => exact .inr rfl
          | some count => exact .inl ⟨_, .suffix (parseUsize_eq_some.mp read)⟩
      · cases read : parseUsize start with
        | none => exact .inr rfl
        | some first =>
            have numeral := parseUsize_eq_some.mp read
            by_cases empty : finish = []
            · subst empty
              exact .inl ⟨_, .starting numeral⟩
            · rw [if_neg empty]
              cases reads : parseUsize finish with
              | none => exact .inr rfl
              | some last => exact .inl ⟨_, .between numeral (parseUsize_eq_some.mp reads)⟩

theorem collectByteRanges_cons {total index : Nat} (room : index ≠ maxByteRanges)
    (value : List Char) (values : List (List Char)) :
    collectByteRanges total index (value :: values) =
      match parseByteRange (trim value) total with
      | .ok range => (range :: ·) <$> collectByteRanges total (index + 1) values
      | .error .unsatisfiable => collectByteRanges total (index + 1) values
      | .error .malformed => .error .malformed := by
  rw [collectByteRanges, if_neg room]
  cases parseByteRange (trim value) total with
  | ok range => cases collectByteRanges total (index + 1) values <;> rfl
  | error error => cases error <;> rfl

theorem requests_of_collectByteRanges {total index : Nat} {values : List (List Char)}
    {ranges : List (Nat × Nat)} (bounded : index ≤ maxByteRanges)
    (accepted : collectByteRanges total index values = .ok ranges) :
    index + values.length ≤ maxByteRanges ∧
      ∃ requests, List.Forall₂ (fun value requested => RangeText (trim value) requested)
        values requests ∧ Intersections total requests ranges := by
  induction values generalizing index ranges with
  | nil =>
      rw [collectByteRanges] at accepted
      obtain rfl := Except.ok.inj accepted
      exact ⟨bounded, [], .nil, .nil⟩
  | cons value values induction =>
      have room : index ≠ maxByteRanges := by
        rintro rfl
        rw [collectByteRanges, if_pos rfl] at accepted
        contradiction
      have next : index + 1 ≤ maxByteRanges := by omega
      rw [collectByteRanges_cons room] at accepted
      rw [List.length_cons]
      rcases parseByteRange_cases (trim value) total with ⟨requested, text⟩ | malformed
      · rw [parseByteRange_of_text text] at accepted
        rcases requested.clip_cases total with ⟨range, clipped, met⟩ | ⟨clipped, missed⟩
        · rw [clipped] at accepted
          cases behind : collectByteRanges total (index + 1) values with
          | error error =>
              rw [behind] at accepted
              contradiction
          | ok others =>
              rw [behind] at accepted
              obtain rfl : range :: others = ranges := Except.ok.inj accepted
              obtain ⟨fits, requests, texts, intersections⟩ := induction next behind
              exact ⟨by omega, requested :: requests, .cons text texts, .meets met intersections⟩
        · rw [clipped] at accepted
          obtain ⟨fits, requests, texts, intersections⟩ := induction next accepted
          exact ⟨by omega, requested :: requests, .cons text texts, .misses missed intersections⟩
      · rw [malformed] at accepted
        contradiction

theorem collectByteRanges_of_requests {total index : Nat} {values : List (List Char)}
    {requests : List RequestedRange} {ranges : List (Nat × Nat)}
    (fits : index + values.length ≤ maxByteRanges)
    (texts : List.Forall₂ (fun value requested => RangeText (trim value) requested)
      values requests) (intersections : Intersections total requests ranges) :
    collectByteRanges total index values = .ok ranges := by
  induction texts generalizing index ranges with
  | nil =>
      cases intersections
      rfl
  | @cons value requested values requests text _ induction =>
      rw [List.length_cons] at fits
      rw [collectByteRanges_cons (by omega), parseByteRange_of_text text]
      cases intersections with
      | meets met behind =>
          rcases requested.clip_cases total with ⟨range, clipped, found⟩ | ⟨-, missed⟩
          · rw [clipped, found.unique met, induction (by omega) behind]
            rfl
          · exact absurd missed met.not_misses
      | misses missed behind =>
          rcases requested.clip_cases total with ⟨range, -, found⟩ | ⟨clipped, -⟩
          · exact absurd missed found.not_misses
          · rw [clipped]
            exact induction (by omega) behind

/-- A header of this text asks for these parts, in the unit of bytes. -/
structure AsksFor (value : List Char) (requests : List RequestedRange) : Prop where
  short : (String.ofList value).utf8ByteSize ≤ maxRangeHeaderBytes
  parts : ∃ unit values, '=' ∉ unit ∧ (∀ part ∈ values, ',' ∉ part) ∧
    value = unit ++ '=' :: [','].intercalate values ∧
    equalIgnoringCase (trim unit) "bytes".toList ∧
    List.Forall₂ (fun part requested => RangeText (trim part) requested) values requests
  few : requests.length ≤ maxByteRanges

/-- An accepted header gives the intersections of what it asks for with the content. -/
theorem parseByteRanges_eq_ok {value : List Char} {total : Nat} {ranges : List (Nat × Nat)} :
    parseByteRanges value total = .ok ranges ↔
      ranges ≠ [] ∧ ∃ requests, AsksFor value requests ∧ Intersections total requests ranges := by
  rw [parseByteRanges]
  constructor
  · intro accepted
    split at accepted
    · contradiction
    · next short =>
        cases parts : splitOnce '=' value with
        | none =>
            rw [parts] at accepted
            contradiction
        | some pair =>
            obtain ⟨unit, rest⟩ := pair
            obtain ⟨plain, rfl⟩ := splitOnce_eq_some.mp parts
            rw [parts] at accepted
            simp only at accepted
            split at accepted
            · contradiction
            · next named =>
                cases collected : collectByteRanges total 0 (rest.splitOn ',') with
                | error error =>
                    rw [collected] at accepted
                    contradiction
                | ok found =>
                    rw [collected] at accepted
                    change (if found = [] then _ else _) = _ at accepted
                    split at accepted
                    · contradiction
                    · next some =>
                        obtain rfl := Except.ok.inj accepted
                        obtain ⟨joined, separate⟩ := splitOn_spec ',' rest
                        obtain ⟨fits, requests, texts, intersections⟩ :=
                          requests_of_collectByteRanges (Nat.zero_le _) collected
                        have few : requests.length ≤ maxByteRanges := by
                          have same := texts.length_eq
                          omega
                        refine ⟨some, requests, ⟨not_lt.mp short, ?_, few⟩, intersections⟩
                        exact ⟨unit, rest.splitOn ',', plain, separate, by rw [joined],
                          not_not.mp named, texts⟩
  · rintro ⟨some, requests, ⟨short, ⟨unit, values, plain, separate, rfl, named, texts⟩, few⟩,
      intersections⟩
    have written : values ≠ [] := by
      rintro rfl
      cases texts
      cases intersections
      exact some rfl
    have fits : 0 + values.length ≤ maxByteRanges := by
      have same := texts.length_eq
      omega
    rw [if_neg (not_lt.mpr short), splitOnce_eq_some.mpr ⟨plain, rfl⟩]
    simp only
    rw [if_neg (not_not.mpr named), List.splitOn_intercalate ',' separate written,
      collectByteRanges_of_requests fits texts intersections]
    change (if ranges = [] then _ else _) = _
    rw [if_neg some]

end ArIoGateway
