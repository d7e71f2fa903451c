import ArIoGateway.Base64Data
import ArIoGateway.IndexedLookup

/-!
# Lookup of an item in a bundle

A lookup scans a whole bundle, also behind the item that it has found, and checks the bundle's
framing on the way.  This file says which entry it returns, by offset, by listed identifier and by
the signature, and when an entry that is no valid item stands in the way.
-/

namespace ArIoGateway

open Octets

variable {crypto : CryptoSuite} {reader : JsonReader}

/-- An entry whose item is valid, may be served and has an identity. -/
def BundleEntry.Serves (crypto : CryptoSuite) (reader : JsonReader) (materialize : Option Nat)
    (expectedId : FixedBytes 32) (entry : BundleEntry) (item : VerifiedItem) : Prop :=
  entry.verify crypto reader materialize = .ok (some item) ∧
    ∃ headerId, entry.id = some headerId ∧ item.id crypto.toHashSuite headerId = expectedId

/-- An entry that a lookup passes: it is not selected, or it is selected and is no valid item. -/
def BundleEntry.Passed (crypto : CryptoSuite) (reader : JsonReader) (materialize : Option Nat)
    (selected : Checked Bool) (entry : BundleEntry) : Prop :=
  selected = .ok false ∨
    selected = .ok true ∧ entry.verify crypto reader materialize = .ok none

theorem lookupEntry_eq_none {expectedId : FixedBytes 32} {expectedOffset materialize : Option Nat}
    {signatureLookup : Bool} {entry : BundleEntry} :
    lookupEntry crypto reader expectedId expectedOffset materialize signatureLookup none entry =
        .ok none ↔
      entry.Passed crypto reader materialize
        (entry.selected crypto expectedId expectedOffset signatureLookup) := by
  rw [lookupEntry, BundleEntry.Passed]
  cases entry.selected crypto expectedId expectedOffset signatureLookup with
  | error message => simp
  | ok selected =>
      cases selected with
      | false => simp
      | true =>
          cases entry.verify crypto reader materialize with
          | error message => simp
          | ok found => cases found <;> simp

theorem lookupEntry_eq_some {expectedId : FixedBytes 32} {expectedOffset materialize : Option Nat}
    {signatureLookup : Bool} {entry : BundleEntry} {item : VerifiedItem} {offset : Nat} :
    lookupEntry crypto reader expectedId expectedOffset materialize signatureLookup none entry =
        .ok (some (item, offset)) ↔
      entry.selected crypto expectedId expectedOffset signatureLookup = .ok true ∧
        entry.Serves crypto reader materialize expectedId item ∧ entry.offset = offset := by
  rw [lookupEntry, BundleEntry.Serves]
  cases entry.selected crypto expectedId expectedOffset signatureLookup with
  | error message => simp
  | ok selected =>
      cases selected with
      | false => simp
      | true =>
          cases entry.verify crypto reader materialize with
          | error message => simp
          | ok found =>
              cases found with
              | none => simp
              | some other =>
                  simp only [Option.isSome_none, Bool.false_eq_true, if_false, if_true,
                    Checked.ok_bind, Checked.bind_eq_ok, Checked.ensure_eq_ok, Checked.pure_eq_ok,
                    Option.any_eq_true, decide_eq_true_eq, Except.ok.injEq, Option.some.injEq,
                    Prod.mk.injEq]
                  constructor
                  · rintro ⟨_, listed, rfl, rfl⟩
                    exact ⟨trivial, ⟨rfl, listed⟩, rfl⟩
                  · rintro ⟨_, ⟨rfl, listed⟩, rfl⟩
                    exact ⟨(), listed, rfl, rfl⟩

/-- A pass that finds nothing has passed every entry. -/
theorem foldlM_lookupEntry_eq_none {expectedId : FixedBytes 32}
    {expectedOffset materialize : Option Nat} {signatureLookup : Bool} {entries : List BundleEntry} :
    entries.foldlM (lookupEntry crypto reader expectedId expectedOffset materialize signatureLookup)
        none = .ok none ↔
      ∀ entry ∈ entries, entry.Passed crypto reader materialize
        (entry.selected crypto expectedId expectedOffset signatureLookup) := by
  induction entries with
  | nil => simp
  | cons first entries induction =>
      rw [List.foldlM_cons, Checked.bind_eq_ok, List.forall_mem_cons, ← lookupEntry_eq_none,
        ← induction]
      constructor
      · rintro ⟨_ | found, looked, rest⟩
        · exact ⟨looked, rest⟩
        · rw [foldlM_lookupEntry_found] at rest
          cases rest
      · rintro ⟨looked, rest⟩
        exact ⟨none, looked, rest⟩

/-- A pass returns the first entry that it does not pass. -/
theorem foldlM_lookupEntry_eq_some {expectedId : FixedBytes 32}
    {expectedOffset materialize : Option Nat} {signatureLookup : Bool} {entries : List BundleEntry}
    {item : VerifiedItem} {offset : Nat} :
    entries.foldlM (lookupEntry crypto reader expectedId expectedOffset materialize signatureLookup)
        none = .ok (some (item, offset)) ↔
      ∃ before entry after, entries = before ++ entry :: after ∧
        (∀ other ∈ before, other.Passed crypto reader materialize
          (other.selected crypto expectedId expectedOffset signatureLookup)) ∧
        entry.selected crypto expectedId expectedOffset signatureLookup = .ok true ∧
        entry.Serves crypto reader materialize expectedId item ∧ entry.offset = offset := by
  induction entries with
  | nil => simp
  | cons first entries induction =>
      rw [List.foldlM_cons, Checked.bind_eq_ok]
      constructor
      · rintro ⟨_ | found, looked, rest⟩
        · obtain ⟨before, entry, after, rfl, passed, facts⟩ := induction.mp rest
          refine ⟨first :: before, entry, after, rfl, ?_, facts⟩
          exact List.forall_mem_cons.mpr ⟨lookupEntry_eq_none.mp looked, passed⟩
        · rw [foldlM_lookupEntry_found] at rest
          obtain rfl := Option.some.inj (Except.ok.inj rest)
          exact ⟨[], first, entries, rfl, by simp, lookupEntry_eq_some.mp looked⟩
      · rintro ⟨before, entry, after, split, passed, facts⟩
        cases before with
        | nil =>
            obtain ⟨rfl, rfl⟩ := List.cons.inj split
            exact ⟨some (item, offset), lookupEntry_eq_some.mpr facts, foldlM_lookupEntry_found _ _⟩
        | cons other before =>
            obtain ⟨rfl, rfl⟩ := List.cons.inj split
            obtain ⟨other, passed⟩ := List.forall_mem_cons.mp passed
            exact ⟨none, lookupEntry_eq_none.mpr other,
              induction.mpr ⟨before, entry, after, rfl, passed, facts⟩⟩

/-- A pass reads the bundle to its end. -/
theorem lookupPass_eq_ok {bundle : Bytes} {format : BundleFormat} {expectedId : FixedBytes 32}
    {expectedOffset materialize : Option Nat} {signatureLookup : Bool}
    {result : Option (VerifiedItem × Nat)} :
    lookupPass crypto reader bundle format expectedId expectedOffset materialize signatureLookup =
        .ok result ↔
      ∃ entries, listEntries reader bundle format = .ok entries ∧
        entries.foldlM (lookupEntry crypto reader expectedId expectedOffset materialize
          signatureLookup) none = .ok result := by
  rw [lookupPass, Checked.bind_eq_ok]
  constructor
  · rintro ⟨items, created, folded⟩
    obtain ⟨entries, delivers, _⟩ := Cursor.delivers_of_fold folded
    rw [BundleItems.forEach_eq delivers] at folded
    exact ⟨entries, listEntries_of_checked (BundleItems.checked_of_delivers created delivers)
      delivers, folded⟩
  · rintro ⟨entries, listed, folded⟩
    obtain ⟨items, _, created, delivers⟩ := delivers_of_listEntries listed
    exact ⟨items, created, by rwa [BundleItems.forEach_eq delivers]⟩

/-- An entry that a lookup by offset may stand behind: another offset, or no valid item. -/
theorem passed_of_offset {expectedId : FixedBytes 32} {expectedOffset : Nat}
    {materialize : Option Nat} {entry : BundleEntry} :
    entry.Passed crypto reader materialize
        (entry.selected crypto expectedId (some expectedOffset) false) ↔
      (entry.offset = expectedOffset → entry.verify crypto reader materialize = .ok none) := by
  simp only [BundleEntry.Passed, BundleEntry.selected, Checked.pure_eq_ok, decide_eq_false_iff_not,
    decide_eq_true_eq, @eq_comm _ entry.offset]
  tauto

theorem passed_of_listed {expectedId : FixedBytes 32} {materialize : Option Nat}
    {entry : BundleEntry} :
    entry.Passed crypto reader materialize (entry.selected crypto expectedId none false) ↔
      (entry.id = some expectedId → entry.verify crypto reader materialize = .ok none) := by
  simp only [BundleEntry.Passed, BundleEntry.selected, Bool.false_eq_true, if_false,
    Checked.pure_eq_ok, decide_eq_false_iff_not, decide_eq_true_eq]
  tauto

/-- An entry of a binary bundle has a valid item or fails. -/
theorem verify_binary_ne_none {materialize : Option Nat} {entry : BundleEntry}
    (binary : entry.isJson = false) : entry.verify crypto reader materialize ≠ .ok none := by
  cases entry with
  | binary id bytes offset =>
      simp [BundleEntry.verify]
  | json entry => cases binary

theorem passed_of_signature {expectedId : FixedBytes 32} {materialize : Option Nat}
    {entry : BundleEntry} (binary : entry.isJson = false) :
    entry.Passed crypto reader materialize (entry.selected crypto expectedId none true) ↔
      entry.matchesSignatureId crypto.toHashSuite expectedId = .ok false := by
  simp only [BundleEntry.Passed, BundleEntry.selected, if_true, verify_binary_ne_none binary,
    and_false, or_false]

/-- A lookup is its first pass, and for binary bundles without an offset its second. -/
theorem verifyBundleItem_eq_ok {bundle : Bytes} {format : BundleFormat} {expectedId : FixedBytes 32}
    {expectedOffset materialize : Option Nat} {found : VerifiedItem × Nat} :
    verifyBundleItem crypto reader bundle format expectedId expectedOffset materialize = .ok found ↔
      lookupPass crypto reader bundle format expectedId expectedOffset materialize false =
        .ok (some found) ∨
      (format = .binary ∧ expectedOffset = none ∧
        lookupPass crypto reader bundle format expectedId none materialize false = .ok none ∧
        lookupPass crypto reader bundle format expectedId none materialize true =
          .ok (some found)) := by
  rw [verifyBundleItem]
  cases first : lookupPass crypto reader bundle format expectedId expectedOffset materialize
      false with
  | error message =>
      simp only [Checked.error_bind, reduceCtorEq, false_or, false_iff]
      rintro ⟨_, rfl, again, _⟩
      rw [first] at again
      cases again
  | ok result =>
      rw [Checked.ok_bind]
      cases result with
      | some other =>
          simp only [Checked.pure_eq_ok, Except.ok.injEq, Option.some.injEq]
          constructor
          · exact .inl
          · rintro (same | ⟨_, rfl, again, _⟩)
            · exact same
            · rw [first] at again
              cases again
      | none =>
          simp only [Except.ok.injEq, reduceCtorEq, false_or]
          constructor
          · intro done
            split at done
            · cases done
            · rename_i both
              obtain ⟨binary, unset⟩ := not_or.mp both
              obtain rfl : expectedOffset = none := by simpa using unset
              obtain ⟨_ | other, second, done⟩ := Checked.bind_eq_ok.mp done
              · cases done
              · exact ⟨not_not.mp binary, rfl, first, second.trans
                  (congrArg (Except.ok ∘ some) (Checked.pure_eq_ok.mp done))⟩
          · rintro ⟨rfl, rfl, _, second⟩
            rw [if_neg (by simp), second]
            rfl

/-- With an offset, a lookup returns the first valid item at the offset. -/
theorem lookup_by_offset {bundle : Bytes} {format : BundleFormat} {expectedId : FixedBytes 32}
    {expectedOffset : Nat} {materialize : Option Nat} {item : VerifiedItem} {offset : Nat} :
    verifyBundleItem crypto reader bundle format expectedId (some expectedOffset) materialize =
        .ok (item, offset) ↔
      ∃ entries, listEntries reader bundle format = .ok entries ∧
        ∃ before entry after, entries = before ++ entry :: after ∧
          entry.Serves crypto reader materialize expectedId item ∧ entry.offset = offset ∧
          offset = expectedOffset ∧ ∀ other ∈ before, other.offset = expectedOffset →
            other.verify crypto reader materialize = .ok none := by
  simp only [verifyBundleItem_eq_ok, reduceCtorEq, false_and, and_false, or_false, lookupPass_eq_ok,
    foldlM_lookupEntry_eq_some, passed_of_offset]
  simp only [BundleEntry.selected, Checked.pure_eq_ok, decide_eq_true_eq]
  constructor
  · rintro ⟨entries, listed, before, entry, after, split, passed, rfl, serves, rfl⟩
    exact ⟨entries, listed, before, entry, after, split, serves, rfl, rfl, passed⟩
  · rintro ⟨entries, listed, before, entry, after, split, serves, rfl, rfl, passed⟩
    exact ⟨entries, listed, before, entry, after, split, passed, rfl, serves, rfl⟩

theorem selected_listed {expectedId : FixedBytes 32} {entry : BundleEntry} :
    entry.selected crypto expectedId none false = .ok true ↔ entry.id = some expectedId := by
  simp only [BundleEntry.selected, Bool.false_eq_true, if_false, Checked.pure_eq_ok,
    decide_eq_true_eq]

theorem isJson_of_listEntries {bundle : Bytes} {format : BundleFormat}
    {entries : List BundleEntry} (listed : listEntries reader bundle format = .ok entries)
    {entry : BundleEntry} (member : entry ∈ entries) :
    entry.isJson = decide (format = .json) := by
  obtain ⟨items, _, created, delivers⟩ := delivers_of_listEntries listed
  exact isJson_of_delivers created delivers member

/-- Without an offset, a lookup returns the first valid item that is listed under the identifier; in
a binary bundle that lists none, the item of the first signature that hashes to the identifier. -/
theorem lookup_by_id {bundle : Bytes} {format : BundleFormat} {expectedId : FixedBytes 32}
    {materialize : Option Nat} {item : VerifiedItem} {offset : Nat} :
    verifyBundleItem crypto reader bundle format expectedId none materialize = .ok (item, offset) ↔
      ∃ entries, listEntries reader bundle format = .ok entries ∧
        ∃ before entry after, entries = before ++ entry :: after ∧
          entry.Serves crypto reader materialize expectedId item ∧ entry.offset = offset ∧
          ((entry.id = some expectedId ∧ ∀ other ∈ before, other.id = some expectedId →
              other.verify crypto reader materialize = .ok none) ∨
            (format = .binary ∧ (∀ other ∈ entries, other.id ≠ some expectedId) ∧
              entry.matchesSignatureId crypto.toHashSuite expectedId = .ok true ∧
              ∀ other ∈ before,
                other.matchesSignatureId crypto.toHashSuite expectedId = .ok false)) := by
  simp only [verifyBundleItem_eq_ok, lookupPass_eq_ok, foldlM_lookupEntry_eq_some,
    foldlM_lookupEntry_eq_none, passed_of_listed]
  constructor
  · rintro (⟨entries, listed, before, entry, after, split, passed, selected, serves, rfl⟩ |
      ⟨rfl, _, ⟨entries, listed, unlisted⟩, others, again, before, entry, after, split, passed,
        selected, serves, rfl⟩)
    · exact ⟨entries, listed, before, entry, after, split, serves, rfl,
        .inl ⟨selected_listed.mp selected, passed⟩⟩
    · obtain rfl : others = entries := Except.ok.inj (again.symm.trans listed)
      have binary (other : BundleEntry) (member : other ∈ others) : other.isJson = false :=
        isJson_of_listEntries listed member
      refine ⟨others, listed, before, entry, after, split, serves, rfl, .inr ⟨rfl, ?_, selected, ?_⟩⟩
      · intro other member same
        exact verify_binary_ne_none (binary other member) (unlisted other member same)
      · intro other member
        refine (passed_of_signature (binary other ?_)).mp (passed other member)
        rw [split]
        exact List.mem_append_left _ member
  · rintro ⟨entries, listed, before, entry, after, split, serves, rfl,
      ⟨selected, passed⟩ | ⟨rfl, unlisted, selected, passed⟩⟩
    · exact .inl ⟨entries, listed, before, entry, after, split, passed,
        selected_listed.mpr selected, serves, rfl⟩
    · refine .inr ⟨rfl, trivial, ⟨entries, listed, fun other member same =>
        absurd same (unlisted other member)⟩, entries, listed, before, entry, after, split, ?_,
        selected, serves, rfl⟩
      intro other member
      exact .inl (passed other member)

/-- The body of a JSON string: no escape is cut off. -/
inductive Unbroken : Bytes → Prop
  | nil : Unbroken []
  | plain {byte rest} : byte ≠ 92 → Unbroken rest → Unbroken (byte :: rest)
  | short {escaped rest} : escaped ≠ 117 → Unbroken rest → Unbroken (92 :: escaped :: rest)
  | unicode {digits rest} : digits.length = 4 → Unbroken rest →
      Unbroken (92 :: 117 :: (digits ++ rest))

/-- A reader accepts a value that begins with a quote only as a whole string. -/
def JsonReader.Quotes (reader : JsonReader) : Prop :=
  ∀ content, ∀ member ∈ (reader.document content).members, ∀ start offset fields finish,
    JsonElement.object start offset fields finish ∈ member.elements → ∀ field ∈ fields,
      dataBody content (field.valueStart, field.valueEnd) = .ok none ∨
        ∃ first body, dataBody content (field.valueStart, field.valueEnd) =
          .ok (some (first, body)) ∧ Unbroken body

theorem shortEscape_error {escaped : UInt8} {problem : ScanError}
    (failed : shortEscape escaped = .error problem) : problem = .invalid := by
  rw [shortEscape] at failed
  split_ifs at failed
  exact (Except.error.inj failed).symm

theorem hexByte_error {digits : Bytes} {problem : ScanError}
    (failed : hexByte digits = .error problem) : problem = .invalid := by
  rw [hexByte.eq_def] at failed
  split at failed
  · dsimp only at failed
    split at failed
    · cases failed
    · exact (Except.error.inj failed).symm
  · exact (Except.error.inj failed).symm

theorem unescape_of_unbroken {text : Bytes} (body : Unbroken (92 :: text)) :
    unescape text = .error .invalid ∨
      ∃ byte rest, unescape text = .ok (byte, rest) ∧ Unbroken rest := by
  cases body with
  | plain other _ => exact absurd rfl other
  | @short escaped rest other valid =>
      rw [unescape_short other]
      cases spelled : shortEscape escaped with
      | ok byte => exact .inr ⟨byte, rest, rfl, valid⟩
      | error problem =>
          rw [shortEscape_error spelled]
          exact .inl rfl
  | @unicode digits rest four valid =>
      rw [unescape_unicode, if_neg (by rw [List.length_append]; omega),
        List.take_left' four, List.drop_left' four]
      cases spelled : hexByte digits with
      | ok byte => exact .inr ⟨byte, rest, rfl, valid⟩
      | error problem =>
          rw [hexByte_error spelled]
          exact .inl rfl

theorem nextSymbols_of_unbroken {text : Bytes} (limit : Nat) (body : Unbroken text) :
    nextSymbols limit text = .error .invalid ∨
      ∃ symbols rest, nextSymbols limit text = .ok (symbols, rest) ∧ Unbroken rest := by
  induction limit generalizing text with
  | zero => exact .inr ⟨[], text, by rw [nextSymbols.eq_def], body⟩
  | succ limit induction =>
      cases text with
      | nil => exact .inr ⟨[], [], rfl, body⟩
      | cons symbol text =>
          rw [nextSymbols]
          by_cases backslash : symbol = 92
          · subst backslash
            rw [if_pos rfl]
            rcases unescape_of_unbroken body with failed | ⟨byte, after, read, valid⟩
            · exact .inl (by rw [failed]; rfl)
            · rw [read]
              simp only [bind, Except.bind]
              rcases induction valid with failed | ⟨symbols, rest, found, valid⟩
              · exact .inl (by rw [failed])
              · exact .inr ⟨byte :: symbols, rest, by rw [found]; rfl, valid⟩
          · rw [if_neg backslash]
            simp only [bind, Except.bind]
            have valid : Unbroken text := by
              cases body with
              | plain _ valid => exact valid
              | short _ _ => exact absurd rfl backslash
              | unicode _ _ => exact absurd rfl backslash
            rcases induction valid with failed | ⟨symbols, rest, found, valid⟩
            · exact .inl (by rw [failed])
            · exact .inr ⟨symbol :: symbols, rest, by rw [found]; rfl, valid⟩

/-- The data of an unbroken string is invalid or decoded; it never stops early. -/
theorem scanBase64_of_unbroken {text : Bytes} (body : Unbroken text) :
    scanBase64 text ≠ .error .unexpectedEnd := by
  have blocks (rounds : Nat) (text : Bytes) (body : Unbroken text) :
      scanBlocks rounds text ≠ .error .unexpectedEnd := by
    induction rounds generalizing text with
    | zero =>
        intro same
        cases same
    | succ rounds induction =>
        rw [scanBlocks]
        rcases nextSymbols_of_unbroken decodeBlock body with failed | ⟨symbols, rest, found, valid⟩
        · rw [failed]
          intro same
          cases same
        · rw [found]
          simp only [bind, Except.bind]
          split
          · intro same
            cases same
          · cases base64Decode symbols with
            | none =>
                intro same
                cases same
            | some bytes =>
                cases later : scanBlocks rounds rest with
                | ok decoded =>
                    intro same
                    cases same
                | error problem =>
                    intro same
                    exact induction rest valid (later.trans same)
  exact blocks _ text body

theorem jsonEntry_of_mem {source : Bytes} {elements : List JsonElement} {entry : JsonEntry}
    (member : entry ∈ (jsonEntries reader source elements).1) :
    ∃ element ∈ elements, jsonEntry reader source element = .ok entry := by
  induction elements with
  | nil => cases member
  | cons element elements induction =>
      rw [jsonEntries] at member
      cases read : jsonEntry reader source element with
      | error message =>
          rw [read] at member
          cases member
      | ok first =>
          rw [read] at member
          rcases List.mem_cons.mp member with rfl | member
          · exact ⟨element, List.mem_cons_self, read⟩
          · obtain ⟨other, isOther, same⟩ := induction member
            exact ⟨other, List.mem_cons_of_mem _ isOther, same⟩

/-- The data of an entry is no string or an unbroken one. -/
theorem dataBody_of_listEntries (quotes : reader.Quotes) {bundle : Bytes}
    {entries : List BundleEntry} (listed : listEntries reader bundle .json = .ok entries)
    {entry : JsonEntry} (member : .json entry ∈ entries) {span : Nat × Nat}
    (found : entry.fields.data = some span) :
    dataBody entry.source span = .ok none ∨
      ∃ first body, dataBody entry.source span = .ok (some (first, body)) ∧ Unbroken body := by
  obtain ⟨items, _, created, delivers⟩ := delivers_of_listEntries listed
  obtain rfl : BundleItems.json (readJsonBundle reader bundle).1 (readJsonBundle reader bundle).2 =
      items := Checked.pure_eq_ok.mp created
  obtain rfl := delivers_json delivers
  obtain ⟨_, isElement, same⟩ := List.mem_map.mp member
  obtain rfl := BundleEntry.json.inj same
  rcases visitMembers_entries reader bundle (reader.document bundle) false
      (reader.document bundle).start (reader.document bundle).members with
    none | ⟨_, owner, isMember, elements⟩
  · rw [readJsonBundle, none] at isElement
    cases isElement
  · rw [readJsonBundle, elements] at isElement
    obtain ⟨element, isElement, read⟩ := jsonEntry_of_mem isElement
    obtain ⟨source, ⟨start, fields, finish, rfl, _, data⟩ | ⟨_, missing, _⟩⟩ := jsonEntry_spec read
    · obtain ⟨field, isField, rfl⟩ := data span found
      rw [source]
      exact quotes bundle owner isMember start _ fields finish isElement field isField
    · rw [missing] at found
      cases found

/-- An entry of a JSON bundle is a valid item or none; its check does not fail. -/
theorem exists_verify_of_listEntries (quotes : reader.Quotes) {bundle : Bytes}
    {entries : List BundleEntry} (listed : listEntries reader bundle .json = .ok entries)
    {entry : JsonEntry} (member : .json entry ∈ entries) :
    ∃ result, entry.verify crypto reader = .ok result := by
  rw [JsonEntry.verify.eq_def]
  split
  · rename_i id span _ _ found
    cases parseJsonItem crypto.toHashSuite reader entry.fields id with
    | error message => exact ⟨none, rfl⟩
    | ok item =>
        rcases dataBody_of_listEntries quotes listed member found with
          none | ⟨first, body, some, valid⟩
        · exact ⟨Option.none, by simp only [none, Checked.ok_bind]; rfl⟩
        · simp only [some, Checked.ok_bind]
          have complete := scanBase64_of_unbroken valid
          cases scanned : scanBase64 body with
          | ok data => exact ⟨_, rfl⟩
          | error problem =>
              cases problem with
              | invalid => exact ⟨Option.none, rfl⟩
              | unexpectedEnd => exact absurd scanned complete
  · exact ⟨none, rfl⟩

/-- The identity of a valid item of a JSON bundle is the identifier of its entry. -/
theorem id_of_verify_json {entry : JsonEntry} {item : VerifiedItem}
    (verified : entry.verify crypto reader = .ok (some item)) :
    ∃ id, entry.id = some id ∧ item.id crypto.toHashSuite id = id := by
  rw [JsonEntry.verify.eq_def] at verified
  split at verified
  · rename_i id span _ listed _
    refine ⟨id, listed, ?_⟩
    cases parsed : parseJsonItem crypto.toHashSuite reader entry.fields id with
    | error message =>
        rw [parsed] at verified
        cases verified
    | ok parts =>
        have signed : parts.signature ≠ [] ∧ crypto.sha256 [parts.signature] = id := by
          simp only [parseJsonItem, Checked.bind_eq_ok, Checked.ensure_eq_ok,
            Checked.pure_eq_ok] at parsed
          obtain ⟨_, _, _, _, _, _, _, _, _, _, _, _, _, _, _, sizes, _, same, _, _, _, _, _, _, _,
            _, rfl⟩ := parsed
          exact ⟨sizes.2.2.1, same⟩
        simp only [parsed, Checked.bind_eq_ok] at verified
        obtain ⟨_ | ⟨start, body⟩, _, verified⟩ := verified
        · simp at verified
        · cases scanned : scanBase64 body with
          | error problem => cases problem <;> simp [scanned] at verified
          | ok data =>
              simp only [scanned, Checked.pure_eq_ok, verifyJsonItem] at verified
              split at verified
              · cases verified
              · obtain rfl := Option.some.inj verified
                rw [VerifiedItem.id, if_neg signed.1, signed.2]
  · cases verified

/-- The first valid item under an identifier of a JSON bundle, and the entries before it. -/
structure FirstValid (crypto : CryptoSuite) (reader : JsonReader) (bundle : Bytes)
    (expectedId : FixedBytes 32) (materialize : Option Nat) (before : List BundleEntry)
    (entry : BundleEntry) (item : VerifiedItem) : Prop where
  listed : ∃ after, listEntries reader bundle .json = .ok (before ++ entry :: after)
  selected : entry.id = some expectedId
  verified : entry.verify crypto reader materialize = .ok (some item)
  failed : ∀ other ∈ before, other.id = some expectedId →
    ∀ item, other.verify crypto reader none ≠ .ok (some item)

/-- An entry of a JSON bundle that is no valid item passes the check as nothing exactly when it is
within the limit for what is served. -/
theorem verify_eq_none_of_invalid (quotes : reader.Quotes) {bundle : Bytes}
    {materialize : Option Nat} {entries : List BundleEntry} {entry : BundleEntry}
    (listed : listEntries reader bundle .json = .ok entries) (member : entry ∈ entries)
    (invalid : ∀ item, entry.verify crypto reader none ≠ .ok (some item)) :
    entry.verify crypto reader materialize = .ok none ↔
      ∀ limit ∈ materialize, entry.size ≤
        BundleEntry.saturatingAdd (BundleEntry.saturatingMul limit 8) maxJsonBytes := by
  cases entry with
  | binary id bytes offset => exact absurd (isJson_of_listEntries listed member) Bool.false_ne_true
  | json element =>
      rw [BundleEntry.size]
      constructor
      · intro passed
        rw [BundleEntry.verify] at passed
        exact (Checked.bind_eq_ok.mp passed).elim fun _ checked => Checked.ensure_eq_ok.mp checked.1
      · intro small
        obtain ⟨result, checked⟩ : ∃ result, element.verify crypto reader = .ok result :=
          exists_verify_of_listEntries quotes listed member
        cases result with
        | none =>
            rw [BundleEntry.verify, Checked.ensure_of small, Checked.ok_bind, checked]
            rfl
        | some found =>
            refine absurd ?_ (invalid found)
            rw [BundleEntry.verify, Checked.ensure_of (by simp), Checked.ok_bind, checked]
            simp

/-- A lookup in a JSON bundle returns the first valid item under the identifier exactly when the
entries under it that come first, which are no valid items, do not exceed the limit. -/
theorem lookup_first_valid (quotes : reader.Quotes) {bundle : Bytes} {expectedId : FixedBytes 32}
    {materialize : Option Nat} {before : List BundleEntry} {entry : BundleEntry}
    {item : VerifiedItem}
    (first : FirstValid crypto reader bundle expectedId materialize before entry item) :
    verifyBundleItem crypto reader bundle .json expectedId none materialize =
        .ok (item, entry.offset) ↔
      ∀ other ∈ before, other.id = some expectedId → ∀ limit ∈ materialize, other.size ≤
        BundleEntry.saturatingAdd (BundleEntry.saturatingMul limit 8) maxJsonBytes := by
  obtain ⟨⟨after, listed⟩, selected, verified, failed⟩ := first
  have passes (other : BundleEntry) (isBefore : other ∈ before)
      (same : other.id = some expectedId) : other.verify crypto reader materialize = .ok none ↔
        ∀ limit ∈ materialize, other.size ≤
          BundleEntry.saturatingAdd (BundleEntry.saturatingMul limit 8) maxJsonBytes :=
    verify_eq_none_of_invalid quotes listed (List.mem_append_left _ isBefore)
      (failed other isBefore same)
  constructor
  · intro done other isBefore same
    refine (passes other isBefore same).mp ?_
    obtain ⟨entries, again, front, found, back, split, serves, _, which⟩ := lookup_by_id.mp done
    obtain rfl := Except.ok.inj (again.symm.trans listed)
    rcases which with ⟨isFound, passed⟩ | ⟨json, _⟩
    · -- The entry that was found is not before the first valid one, which nothing passes.
      rcases List.append_eq_append_iff.mp split with ⟨middle, rfl, rest⟩ | ⟨middle, rfl, rest⟩
      · exact passed other (List.mem_append_left _ isBefore) same
      · cases middle with
        | nil =>
            rw [List.append_nil] at isBefore
            exact passed other isBefore same
        | cons head middle =>
            obtain ⟨rfl, _⟩ := List.cons.inj rest
            exact absurd (verify_of_served serves.1) (failed _ (by simp) isFound item)
    · cases json
  · intro small
    have identity : item.id crypto.toHashSuite expectedId = expectedId := by
      cases entry with
      | binary id bytes offset =>
          exact absurd (isJson_of_listEntries listed (List.mem_append_right _ List.mem_cons_self))
            Bool.false_ne_true
      | json element =>
          obtain ⟨id, found, same⟩ := id_of_verify_json (verify_of_json verified)
          obtain rfl : id = expectedId := Option.some.inj (found.symm.trans selected)
          exact same
    refine lookup_by_id.mpr ⟨_, listed, before, entry, after, rfl,
      ⟨verified, expectedId, selected, identity⟩, rfl, .inl ⟨selected, ?_⟩⟩
    intro other isBefore same
    exact (passes other isBefore same).mpr (small other isBefore same)

/-- `verify_bundle_item`: what it returns lies in a bundle with valid framing, with the offset and
the size of its entry and with the expected identity; the entry is the first valid one at the
offset, or listed under the identifier, or else of a matching signature in a binary bundle.  Invalid
entries of a JSON bundle do not hide the first valid one exactly when none exceeds the limit. -/
theorem bundle_item_lookup (lawful : reader.Lawful) (quotes : reader.Quotes) (bundle : Bytes)
    (format : BundleFormat) (expectedId : FixedBytes 32) (materialize : Option Nat) :
    (∀ expectedOffset item offset,
      verifyBundleItem crypto reader bundle format expectedId expectedOffset materialize =
          .ok (item, offset) →
        ∃ entries, listEntries reader bundle format = .ok entries ∧ ∃ entry ∈ entries,
          entry.offset = offset ∧ entry.size = item.itemSize ∧
            offset + item.itemSize ≤ bundle.length ∧
              entry.Serves crypto reader none expectedId item) ∧
    (∀ expectedOffset item offset,
      verifyBundleItem crypto reader bundle format expectedId (some expectedOffset) materialize =
          .ok (item, offset) ↔
        ∃ entries, listEntries reader bundle format = .ok entries ∧
          ∃ before entry after, entries = before ++ entry :: after ∧
            entry.Serves crypto reader materialize expectedId item ∧ entry.offset = offset ∧
            offset = expectedOffset ∧ ∀ other ∈ before, other.offset = expectedOffset →
              other.verify crypto reader materialize = .ok none) ∧
    (∀ item offset,
      verifyBundleItem crypto reader bundle format expectedId none materialize =
          .ok (item, offset) ↔
        ∃ entries, listEntries reader bundle format = .ok entries ∧
          ∃ before entry after, entries = before ++ entry :: after ∧
            entry.Serves crypto reader materialize expectedId item ∧ entry.offset = offset ∧
            ((entry.id = some expectedId ∧ ∀ other ∈ before, other.id = some expectedId →
                other.verify crypto reader materialize = .ok none) ∨
              (format = .binary ∧ (∀ other ∈ entries, other.id ≠ some expectedId) ∧
                entry.matchesSignatureId crypto.toHashSuite expectedId = .ok true ∧
                ∀ other ∈ before,
                  other.matchesSignatureId crypto.toHashSuite expectedId = .ok false))) ∧
    ∀ before entry item,
      FirstValid crypto reader bundle expectedId materialize before entry item →
        (verifyBundleItem crypto reader bundle .json expectedId none materialize =
            .ok (item, entry.offset) ↔
          ∀ other ∈ before, other.id = some expectedId → ∀ limit ∈ materialize, other.size ≤
            BundleEntry.saturatingAdd (BundleEntry.saturatingMul limit 8) maxJsonBytes) := by
  refine ⟨fun expectedOffset item offset done => ?_, fun _ _ _ => lookup_by_offset,
    fun _ _ => lookup_by_id, fun _ _ _ first => lookup_first_valid quotes first⟩
  have found : ∃ entries, listEntries reader bundle format = .ok entries ∧ ∃ entry ∈ entries,
      entry.Serves crypto reader materialize expectedId item ∧ entry.offset = offset := by
    cases expectedOffset with
    | some expected =>
        obtain ⟨entries, listed, before, entry, after, rfl, serves, same, _⟩ :=
          lookup_by_offset.mp done
        exact ⟨_, listed, entry, List.mem_append_right _ List.mem_cons_self, serves, same⟩
    | none =>
        obtain ⟨entries, listed, before, entry, after, rfl, serves, same, _⟩ := lookup_by_id.mp done
        exact ⟨_, listed, entry, List.mem_append_right _ List.mem_cons_self, serves, same⟩
  obtain ⟨entries, listed, entry, member, ⟨served, identity⟩, rfl⟩ := found
  obtain ⟨items, _, created, delivers⟩ := delivers_of_listEntries listed
  have framed := (framed_of_delivers lawful created delivers).1 entry member
  have verified := verify_of_served served
  have size := itemSize_of_verify verified
  refine ⟨entries, listed, entry, member, rfl, size.symm, ?_, verified, identity⟩
  rw [size]
  exact framed.inside (offset_ne_zero_of_verify framed verified)

theorem sampleReader_quotes : sampleReader.Quotes :=
  fun _ _ member => by cases member

def repeatedId : FixedBytes 32 :=
  ⟨ofHex "809f7b6b58f7d9aa8420b0ebb55cb18c9124f753409fbe0cf97b4653e6d2ba9e", by decide +kernel⟩

/-- The text in front of a signed entry: an entry with its identifier, and a field of some length. -/
def paddedFront (pad : Nat) : Bytes :=
  utf8 "\x7b\"items\":[\x7b\"id\":\"gJ97a1j32aqEILDrtVyxjJEk91NAn74M-XtGU-bSup4\",\"pad\":\"" ++
    List.replicate pad 97 ++ utf8 "\"\x7d,"

def signedText : Bytes :=
  utf8 "\x7b\"id\":\"gJ97a1j32aqEILDrtVyxjJEk91NAn74M-XtGU-bSup4\"," ++
    utf8 "\"owner\":\"go_JtbUOa2Q7jOU8oJvhPezJx5TtobOYRWrX4qBM05gZew\"," ++
    utf8 "\"signature\":\"gZEwvoeC5hXwHYxuJck6w1Qn9sjglG5DYZhWTL53C60X7w\"," ++
    utf8 "\"target\":\"\",\"tags\":[],\"data\":\"\"\x7d"

@[irreducible] def paddedBundle (pad : Nat) : Bytes := paddedFront pad ++ (signedText ++ utf8 "]\x7d")

/-- What the reader delivers of the first entry. -/
def paddedElement (pad : Nat) : JsonElement :=
  .object 11 10
    [ ⟨"id", "\"gJ97a1j32aqEILDrtVyxjJEk91NAn74M-XtGU-bSup4\"", 15, 16, 61⟩,
      ⟨"pad", "", 67, 68, pad + 70⟩ ] (pad + 71)

/-- What the reader delivers of the second entry. -/
def signedElement (pad : Nat) : JsonElement :=
  .object (pad + 73) (pad + 72)
    [ ⟨"id", "\"gJ97a1j32aqEILDrtVyxjJEk91NAn74M-XtGU-bSup4\"", pad + 77, pad + 78, pad + 123⟩,
      ⟨"owner", "\"go_JtbUOa2Q7jOU8oJvhPezJx5TtobOYRWrX4qBM05gZew\"", pad + 131, pad + 132,
        pad + 180⟩,
      ⟨"signature", "\"gZEwvoeC5hXwHYxuJck6w1Qn9sjglG5DYZhWTL53C60X7w\"", pad + 192, pad + 193,
        pad + 241⟩,
      ⟨"target", "\"\"", pad + 250, pad + 251, pad + 253⟩,
      ⟨"tags", "[]", pad + 260, pad + 261, pad + 263⟩,
      ⟨"data", "\"\"", pad + 270, pad + 271, pad + 273⟩ ] (pad + 274)

def paddedDocument (pad : Nat) : JsonDocument :=
  ⟨1, [⟨"items", 8, [paddedElement pad, signedElement pad], .ok (pad + 275), .ok (pad + 275)⟩],
    .ok (pad + 276), .ok ()⟩

/-- The JSON library on this bundle and on the values in it. -/
def paddedReader (pad : Nat) : JsonReader where
  document := fun content =>
    if content = paddedBundle pad then paddedDocument pad
    else ⟨0, [], .error "expected value", .ok ()⟩
  asString := fun raw =>
    if raw = "\"\"" then some ""
    else if raw = "\"gJ97a1j32aqEILDrtVyxjJEk91NAn74M-XtGU-bSup4\"" then
      some "gJ97a1j32aqEILDrtVyxjJEk91NAn74M-XtGU-bSup4"
    else if raw = "\"go_JtbUOa2Q7jOU8oJvhPezJx5TtobOYRWrX4qBM05gZew\"" then
      some "go_JtbUOa2Q7jOU8oJvhPezJx5TtobOYRWrX4qBM05gZew"
    else if raw = "\"gZEwvoeC5hXwHYxuJck6w1Qn9sjglG5DYZhWTL53C60X7w\"" then
      some "gZEwvoeC5hXwHYxuJck6w1Qn9sjglG5DYZhWTL53C60X7w"
    else none
  asTags := fun raw => if raw = "[]" then some [] else none

theorem length_paddedFront (pad : Nat) : (paddedFront pad).length = pad + 72 := by
  have front : (utf8
      "\x7b\"items\":[\x7b\"id\":\"gJ97a1j32aqEILDrtVyxjJEk91NAn74M-XtGU-bSup4\",\"pad\":\"").length =
        69 := by
    decide
  have back : (utf8 "\"\x7d,").length = 3 := by decide
  rw [paddedFront, List.length_append, List.length_append, List.length_replicate, front, back]
  omega

/-- The kept fields of the entries. -/
def paddedFields : Fields :=
  { offset := 10, values := [("id", "\"gJ97a1j32aqEILDrtVyxjJEk91NAn74M-XtGU-bSup4\"")] }

def signedEntryFields (pad : Nat) : Fields :=
  { offset := pad + 72
    values :=
      [ ("tags", "[]"), ("target", "\"\""),
        ("signature", "\"gZEwvoeC5hXwHYxuJck6w1Qn9sjglG5DYZhWTL53C60X7w\""),
        ("owner", "\"go_JtbUOa2Q7jOU8oJvhPezJx5TtobOYRWrX4qBM05gZew\""),
        ("id", "\"gJ97a1j32aqEILDrtVyxjJEk91NAn74M-XtGU-bSup4\"") ]
    data := some (pad + 271, pad + 273) }

def paddedEntry (pad : Nat) : JsonEntry :=
  ⟨10, pad + 61, some repeatedId, paddedBundle pad, paddedFields⟩

def signedEntry (pad : Nat) : JsonEntry :=
  ⟨pad + 72, 202, some repeatedId, paddedBundle pad, signedEntryFields pad⟩

theorem withinLimit_of {finish start cap : Nat} (short : finish ≤ start + maxJsonKeyBytes)
    (enough : maxJsonKeyBytes ≤ cap) : withinLimit finish start cap = .ok () :=
  Checked.ensure_of (short.trans (Nat.add_le_add_left enough start))

theorem maxJsonKeyBytes_le_fieldCap (key : String) : maxJsonKeyBytes ≤ fieldCap key := by
  simp only [fieldCap, quotedBase64Cap]
  split_ifs <;> omega

theorem visitElement_padded (pad : Nat) :
    visitElement (paddedElement pad) = .ok (paddedFields, pad + 71) := by
  have key (finish start : Nat) (short : finish ≤ start + 256) :
      withinLimit finish start maxJsonKeyBytes = .ok () := withinLimit_of short le_rfl
  have value (finish start : Nat) (short : finish ≤ start + 256) (name : String) :
      withinLimit finish start (fieldCap name) = .ok () :=
    withinLimit_of short (maxJsonKeyBytes_le_fieldCap name)
  simp (disch := omega) [visitElement, paddedElement, visitField, key, value, paddedFields,
    Fields.get]

theorem visitElement_signed (pad : Nat) :
    visitElement (signedElement pad) = .ok (signedEntryFields pad, pad + 274) := by
  have key (finish start : Nat) (short : finish ≤ start + 256) :
      withinLimit finish start maxJsonKeyBytes = .ok () := withinLimit_of short le_rfl
  have value (finish start : Nat) (short : finish ≤ start + 256) (name : String) :
      withinLimit finish start (fieldCap name) = .ok () :=
    withinLimit_of short (maxJsonKeyBytes_le_fieldCap name)
  simp (disch := omega) [visitElement, signedElement, visitField, key, value, signedEntryFields,
    Fields.get]

theorem decode_repeatedId : decodeFixed 32 "gJ97a1j32aqEILDrtVyxjJEk91NAn74M-XtGU-bSup4"
    "JSON item ID" = .ok repeatedId := by
  decide +kernel

theorem listEntries_padded (pad : Nat) : listEntries (paddedReader pad) (paddedBundle pad) .json =
    .ok [.json (paddedEntry pad), .json (signedEntry pad)] := by
  have text : (paddedReader pad).asString "\"gJ97a1j32aqEILDrtVyxjJEk91NAn74M-XtGU-bSup4\"" =
      some "gJ97a1j32aqEILDrtVyxjJEk91NAn74M-XtGU-bSup4" := rfl
  have first : jsonEntry (paddedReader pad) (paddedBundle pad) (paddedElement pad) =
      .ok (paddedEntry pad) := by
    have get : paddedFields.get "id" =
      some "\"gJ97a1j32aqEILDrtVyxjJEk91NAn74M-XtGU-bSup4\"" := by decide
    rw [jsonEntry, visitElement_padded, Checked.ok_bind]
    simp only [get, text, decode_repeatedId, bind, Option.bind_some]
    rfl
  have second : jsonEntry (paddedReader pad) (paddedBundle pad) (signedElement pad) =
      .ok (signedEntry pad) := by
    have get : (signedEntryFields pad).get "id" =
      some "\"gJ97a1j32aqEILDrtVyxjJEk91NAn74M-XtGU-bSup4\"" := rfl
    have size : pad + 274 - (signedEntryFields pad).offset = 202 := Nat.add_sub_add_left pad 274 72
    rw [jsonEntry, visitElement_signed, Checked.ok_bind]
    simp only [get, text, decode_repeatedId, bind, Option.bind_some, size]
    rfl
  have document : (paddedReader pad).document (paddedBundle pad) = paddedDocument pad := if_pos rfl
  have read : readJsonBundle (paddedReader pad) (paddedBundle pad) =
      ([paddedEntry pad, signedEntry pad], .ok ()) := by
    have opening : withinLimit 8 1 maxJsonKeyBytes = .ok () := rfl
    have closing : withinLimit (pad + 276) (pad + 275) maxJsonKeyBytes = .ok () :=
      withinLimit_of (by rw [maxJsonKeyBytes]; omega) le_rfl
    rw [readJsonBundle, document, paddedDocument]
    simp [visitMembers, jsonEntries, first, second, opening, closing, Checked.ensure, bind,
      Except.bind, pure, Except.pure]
  have created : BundleItems.new (paddedReader pad) (paddedBundle pad) .json =
      .ok (.json [paddedEntry pad, signedEntry pad] (.ok ())) := by
    rw [BundleItems.new, read]
    rfl
  have delivers : Cursor.Delivers BundleItems.next
      (.json [paddedEntry pad, signedEntry pad] (.ok ()))
      [.json (paddedEntry pad), .json (signedEntry pad)] := .more rfl (.more rfl (.done rfl))
  exact listEntries_of_checked (BundleItems.checked_of_delivers created delivers) delivers

theorem sliceContent_append (front rest : Bytes) (start finish : Nat) :
    sliceContent (front ++ rest) (front.length + start) (front.length + finish) =
      sliceContent rest start finish := by
  have bounds : front.length + start ≤ front.length + finish ∧
      front.length + finish ≤ (front ++ rest).length ↔ start ≤ finish ∧ finish ≤ rest.length := by
    rw [List.length_append]
    omega
  rw [sliceContent, sliceContent, List.take_length_add_append, List.drop_length_add_append]
  simp only [bounds]

/-- The data of the signed entry is the empty string. -/
theorem dataBody_signed (pad : Nat) :
    dataBody (paddedBundle pad) (pad + 271, pad + 273) = .ok (some (pad + 272, [])) := by
  have shift (offset : Nat) : pad + (72 + offset) = (paddedFront pad).length + offset := by
    rw [length_paddedFront, Nat.add_assoc]
  have getD (offset : Nat) : (paddedBundle pad).getD (pad + (72 + offset)) 0 =
      (signedText ++ utf8 "]\x7d").getD offset 0 := by
    rw [paddedBundle, shift, List.getD_eq_getElem?_getD, List.getD_eq_getElem?_getD,
      List.getElem?_append_right (Nat.le_add_right _ _), Nat.add_sub_cancel_left]
  have slice (start finish : Nat) :
      sliceContent (paddedBundle pad) (pad + (72 + start)) (pad + (72 + finish)) =
        sliceContent (signedText ++ utf8 "]\x7d") start finish := by
    rw [paddedBundle, shift, shift, sliceContent_append]
  have text : sliceContent (paddedBundle pad) (pad + 271) (pad + 273) = .ok [34, 34] :=
    (slice 199 201).trans (by decide +kernel)
  have opening : (paddedBundle pad).getD (pad + 271) 0 = 34 := (getD 199).trans (by decide)
  have closing : (paddedBundle pad).getD (pad + 273 - 1) 0 = 34 :=
    (getD 200).trans (by decide)
  have body : sliceContent (paddedBundle pad) (pad + 271 + 1) (pad + 273 - 1) = .ok [] :=
    (slice 200 200).trans (by decide +kernel)
  have start : ([34, 34].takeWhile isAsciiWhitespace).length = 0 := by decide
  rw [dataBody, if_neg (by simp), text, Checked.ok_bind, start, Nat.add_zero]
  simp only [opening, closing, body, Checked.ok_bind, ne_eq, not_true_eq_false, or_false]
  rw [if_neg (by omega)]
  rfl

theorem verify_of_parts {entry : JsonEntry} {id : FixedBytes 32} {span : Nat × Nat}
    {parts : JsonItem} {start : Nat} {body data : Bytes} (valid : entry.fields.invalid = false)
    (listed : entry.id = some id) (found : entry.fields.data = some span)
    (parsed : parseJsonItem crypto.toHashSuite reader entry.fields id = .ok parts)
    (located : dataBody entry.source span = .ok (some (start, body)))
    (scanned : scanBase64 body = .ok data) :
    entry.verify crypto reader =
      .ok (verifyJsonItem crypto entry parts (start - entry.offset) data) := by
  rw [JsonEntry.verify.eq_def, valid, listed, found]
  simp only [parsed, located, scanned, Checked.ok_bind]
  rfl

/-- The second entry is a valid item, also with a limit of one byte. -/
theorem verify_signed (pad : Nat) : ∃ item, BundleEntry.verify sampleCrypto (paddedReader pad)
    (some 1) (.json (signedEntry pad)) = .ok (some item) := by
  have computed : ((parseJsonItem sha2Suite (paddedReader pad) (signedEntryFields pad)
      repeatedId).toOption.bind fun parts => verifyJsonItem sampleCrypto (signedEntry pad) parts 200
        []).any (fun item => item.data.length = 0) = true := by
    -- The length of the padding is in none of the parts.
    show ((parseJsonItem sha2Suite (paddedReader 0) (signedEntryFields 0) repeatedId).toOption.bind
      fun parts => verifyJsonItem sampleCrypto (signedEntry 0) parts 200 []).any
        (fun item => item.data.length = 0) = true
    decide +kernel
  obtain ⟨item, found, short⟩ := Option.any_eq_true _ _ |>.mp computed
  obtain ⟨parts, parsed, valid⟩ := Option.bind_eq_some_iff.mp found
  have parsed : parseJsonItem sha2Suite (paddedReader pad) (signedEntryFields pad) repeatedId =
      .ok parts := by
    cases result : parseJsonItem sha2Suite (paddedReader pad) (signedEntryFields pad) repeatedId with
    | error message =>
        rw [result] at parsed
        cases parsed
    | ok other =>
        rw [result] at parsed
        exact congrArg Except.ok (Option.some.inj parsed)
  have start : pad + 272 - (signedEntry pad).offset = 200 := Nat.add_sub_add_left pad 272 72
  have checked : (signedEntry pad).verify sampleCrypto (paddedReader pad) =
      .ok (verifyJsonItem sampleCrypto (signedEntry pad) parts
        (pad + 272 - (signedEntry pad).offset) []) :=
    verify_of_parts rfl rfl rfl parsed (dataBody_signed pad) rfl
  rw [start, valid] at checked
  have short : ∀ limit ∈ some 1, item.data.length ≤ limit := by
    rintro _ ⟨⟩
    exact (of_decide_eq_true short).le.trans (Nat.zero_le 1)
  refine ⟨item, ?_⟩
  rw [BundleEntry.verify, Checked.ensure_of (by rintro _ ⟨⟩; show 202 ≤ 1048584; decide),
    Checked.ok_bind, checked, Checked.ok_bind]
  simp only [Checked.ensure_of short, Checked.ok_bind]
  rfl

theorem firstValid_signed (pad : Nat) : ∃ item, FirstValid sampleCrypto (paddedReader pad)
    (paddedBundle pad) repeatedId (some 1) [.json (paddedEntry pad)] (.json (signedEntry pad))
      item := by
  obtain ⟨item, verified⟩ := verify_signed pad
  refine ⟨item, ⟨[], listEntries_padded pad⟩, rfl, verified, fun other isBefore _ item valid => ?_⟩
  obtain rfl := List.mem_singleton.mp isBefore
  cases valid

theorem mem_paddedDocument {content : Bytes} {member : JsonMember}
    (isMember : member ∈ ((paddedReader 0).document content).members) :
    content = paddedBundle 0 ∧ member.elements = [paddedElement 0, signedElement 0] := by
  simp only [paddedReader] at isMember
  split at isMember
  · next same =>
    obtain rfl := List.mem_singleton.mp isMember
    exact ⟨same, rfl⟩
  · cases isMember

theorem paddedReader_lawful : (paddedReader 0).Lawful where
  ascending content member isMember := by
    rw [(mem_paddedDocument isMember).2]
    decide
  inside content member isMember := by
    obtain ⟨rfl, same⟩ := mem_paddedDocument isMember
    have length : (paddedBundle 0).length = 276 := by
      rw [paddedBundle, List.length_append, length_paddedFront]
      decide +kernel
    rw [same, length]
    decide

theorem unbroken_of_plain {text : Bytes} (plain : ∀ byte ∈ text, byte ≠ 92) : Unbroken text := by
  induction text with
  | nil => exact .nil
  | cons byte text induction =>
      obtain ⟨first, rest⟩ := List.forall_mem_cons.mp plain
      exact .plain first (induction rest)

/-- The fields of an element that is an object. -/
def JsonElement.fields : JsonElement → List JsonField
  | .object _ _ fields _ => fields
  | .other _ _ _ => []

theorem paddedReader_quotes : (paddedReader 0).Quotes := by
  have plain : ∀ element ∈ [paddedElement 0, signedElement 0], ∀ field ∈ element.fields,
      ((dataBody (paddedBundle 0) (field.valueStart, field.valueEnd)).toOption.any fun found =>
        found.all fun body => body.2.all fun byte => byte ≠ 92) = true := by
    decide +kernel
  intro content member isMember start offset fields finish isElement field isField
  obtain ⟨rfl, same⟩ := mem_paddedDocument isMember
  rw [same] at isElement
  have checked := plain _ isElement field isField
  cases located : dataBody (paddedBundle 0) (field.valueStart, field.valueEnd) with
  | error message =>
      rw [located] at checked
      cases checked
  | ok found =>
      cases found with
      | none => exact .inl rfl
      | some found =>
          refine .inr ⟨found.1, found.2, rfl, unbroken_of_plain ?_⟩
          rw [located] at checked
          simpa [Except.toOption] using checked

theorem bundle_item_lookup_sample :
    (∃ item offset, verifyBundleItem sampleCrypto sampleReader sampleRoot .binary
        (sha2Suite.sha256 [bundleSignature]) none none = .ok (item, offset) ∧
      ∃ entries, listEntries sampleReader sampleRoot .binary = .ok entries ∧
        ∃ entry ∈ entries, entry.offset = offset ∧ entry.size = item.itemSize ∧
          offset + item.itemSize ≤ sampleRoot.length ∧
            entry.Serves sampleCrypto sampleReader none (sha2Suite.sha256 [bundleSignature]) item) ∧
    ∃ item, verifyBundleItem sampleCrypto (paddedReader 0) (paddedBundle 0) .json repeatedId none
      (some 1) = .ok (item, 72) := by
  constructor
  · obtain ⟨⟨item, offset⟩, done⟩ := Checked.exists_of_isOk
      (verifyBundleItem sampleCrypto sampleReader sampleRoot .binary
        (sha2Suite.sha256 [bundleSignature]) none none) (by decide +kernel)
    exact ⟨item, offset, done, (bundle_item_lookup sampleReader_lawful sampleReader_quotes sampleRoot
      .binary (sha2Suite.sha256 [bundleSignature]) none).1 none item offset done⟩
  · obtain ⟨item, first⟩ := firstValid_signed 0
    refine ⟨item, ((bundle_item_lookup paddedReader_lawful paddedReader_quotes (paddedBundle 0) .json
      repeatedId (some 1)).2.2.2 _ _ item first).mpr ?_⟩
    intro other isBefore _
    obtain rfl := List.mem_singleton.mp isBefore
    rintro _ ⟨⟩
    decide

/-- The first entry exceeds the limit, and the lookup fails there. -/
theorem bundle_item_lookup_oversize :
    (∃ item, FirstValid sampleCrypto (paddedReader 1048576) (paddedBundle 1048576) repeatedId
      (some 1) [.json (paddedEntry 1048576)] (.json (signedEntry 1048576)) item) ∧
    ∀ found, verifyBundleItem sampleCrypto (paddedReader 1048576) (paddedBundle 1048576) .json
      repeatedId none (some 1) ≠ .ok found := by
  refine ⟨firstValid_signed 1048576, ?_⟩
  rintro ⟨item, offset⟩ done
  obtain ⟨entries, listed, before, entry, after, split, serves, _, which⟩ := lookup_by_id.mp done
  obtain rfl := Except.ok.inj ((listEntries_padded 1048576).symm.trans listed)
  have large : ¬∀ limit ∈ some 1, (paddedEntry 1048576).size ≤
      BundleEntry.saturatingAdd (BundleEntry.saturatingMul limit 8) maxJsonBytes := by
    intro small
    exact absurd (small 1 rfl) (by decide)
  have refused (result : Option VerifiedItem) : BundleEntry.verify sampleCrypto
      (paddedReader 1048576) (some 1) (.json (paddedEntry 1048576)) ≠ .ok result := by
    rw [BundleEntry.verify, Checked.ensure, if_neg large]
    intro same
    cases same
  cases before with
  | nil =>
      obtain ⟨rfl, _⟩ := List.cons.inj split
      exact refused _ serves.1
  | cons other before =>
      obtain ⟨rfl, _⟩ := List.cons.inj split
      rcases which with ⟨_, passed⟩ | ⟨json, _⟩
      · exact refused _ (passed _ List.mem_cons_self rfl)
      · cases json

end ArIoGateway
