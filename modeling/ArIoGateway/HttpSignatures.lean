import ArIoGateway.Codec
import ArIoGateway.Foundation.Pieces
import ArIoGateway.Objects
import Mathlib.Data.List.Nodup
import Mathlib.Data.List.Sort

/-!
# Signatures of responses

A gateway signs what it says about data.  The base of a signature has one line for the status, one
for each header that is covered, two for the request when it is bound, and a last one with the
parameters of the signature.
-/

namespace ArIoGateway

open Octets Pieces

/-- Symbols of tokens other than letters and digits. -/
def isTokenMark (byte : UInt8) : Bool :=
  byte ∈ utf8 "!#$%&'*+-.^_`|~"

/-- The name of a header, in lower case as a header map keeps it. -/
abbrev HeaderName :=
  { name : Bytes //
    name ≠ [] ∧ ∀ byte ∈ name, (97 ≤ byte.toNat ∧ byte.toNat ≤ 122) ∨ isAsciiDigit byte = true ∨
      isTokenMark byte = true }

/-- The value of a header. -/
abbrev HeaderValue :=
  { value : Bytes // ∀ byte ∈ value, (32 ≤ byte.toNat ∧ byte ≠ 127) ∨ byte = 9 }

/-- `HeaderValue::from_str`. -/
def parseHeaderValue (text : Bytes) : Option HeaderValue :=
  if valid : ∀ byte ∈ text, (32 ≤ byte.toNat ∧ byte ≠ 127) ∨ byte = 9 then some ⟨text, valid⟩
  else none

/-- The method of a request, a token. -/
abbrev Method :=
  { method : Bytes // ∀ byte ∈ method, (65 ≤ byte.toNat ∧ byte.toNat ≤ 90) ∨
      (97 ≤ byte.toNat ∧ byte.toNat ≤ 122) ∨ isAsciiDigit byte = true ∨ isTokenMark byte = true }

/-- The path of a request, which has no blanks and no control characters. -/
abbrev UriPath := { path : Bytes // ∀ byte ∈ path, 33 ≤ byte.toNat ∧ byte ≠ 127 }

/-- A header map: every name once, in any order, with its values in their own order. -/
structure HeaderMap where
  fields : List (HeaderName × List HeaderValue)
  distinct : (fields.map Prod.fst).Nodup
  filled : ∀ field ∈ fields, field.2 ≠ []

namespace HeaderMap

def keys (headers : HeaderMap) : List HeaderName := headers.fields.map Prod.fst

/-- `get_all`. -/
def getAll (headers : HeaderMap) (name : HeaderName) : List HeaderValue :=
  (headers.fields.lookup name).getD []

def remove (headers : HeaderMap) (name : HeaderName) : HeaderMap where
  fields := headers.fields.filter fun field => field.1 ≠ name
  distinct := headers.distinct.sublist (List.filter_sublist.map Prod.fst)
  filled field member := headers.filled field (List.mem_filter.mp member).1

/-- `insert`: the value takes the place of all values of its name. -/
def insert (headers : HeaderMap) (name : HeaderName) (value : HeaderValue) : HeaderMap where
  fields := (headers.remove name).fields ++ [(name, [value])]
  distinct := by
    rw [List.map_append, List.map_singleton, List.nodup_append]
    refine ⟨(headers.remove name).distinct, List.nodup_singleton _, ?_⟩
    rintro other member same new rfl
    obtain rfl := List.mem_singleton.mp new
    obtain ⟨field, kept, named⟩ := List.mem_map.mp member
    exact of_decide_eq_true (List.mem_filter.mp kept).2 named
  filled := by
    intro field member
    rcases List.mem_append.mp member with old | new
    · exact (headers.remove name).filled field old
    · rw [List.mem_singleton.mp new]
      exact List.cons_ne_nil _ _

end HeaderMap

/-- `SIGNATURE_TRIGGERS`. -/
def signatureTriggers : List Bytes :=
  ["x-ar-io-data-id", "x-ar-io-verified", "x-ar-io-stable", "x-ar-io-trusted",
    "x-ar-io-root-transaction-id", "x-arweave-owner-address", "x-arweave-tags-truncated",
    "x-arweave-chunk-data-root", "x-arweave-chunk-tx-id", "x-ar-io-chunk-source-type",
    "x-ar-io-index-publication", "x-ar-io-index-file", "x-ar-io-index-torrent",
    "x-ar-io-index-feed"].map utf8

/-- `SIGNATURE_EXTRA_HEADERS`. -/
def signatureExtraHeaders : List Bytes :=
  ["content-type", "content-digest", "repr-digest", "x-ar-io-root-data-item-offset",
    "x-ar-io-root-data-offset", "x-ar-io-root-item-offset", "x-ar-io-root-item-size",
    "x-ar-io-root-path"].map utf8

/-- The headers that make a response one that is signed. -/
def isTrigger (name : HeaderName) : Bool :=
  signatureTriggers.contains name.val || (utf8 "x-arns-").isPrefixOf name.val

def isCovered (name : HeaderName) : Bool :=
  signatureTriggers.contains name.val || signatureExtraHeaders.contains name.val ||
    (utf8 "x-arweave-tag-").isPrefixOf name.val || (utf8 "x-arns-").isPrefixOf name.val

/-- The covered names of a response in their order, `sort_unstable`. -/
def coveredNames (headers : HeaderMap) : List HeaderName :=
  (headers.keys.filter isCovered).insertionSort fun left right => left.val ≤ right.val

def signatureName : HeaderName := ⟨utf8 "signature", by decide +kernel⟩

def signatureInputName : HeaderName := ⟨utf8 "signature-input", by decide +kernel⟩

/-- A name between quotation marks. -/
def quoted (name : Bytes) : Bytes := 34 :: name ++ [34]

/-- The values of a header with commas between them. -/
def joinedValue (headers : HeaderMap) (name : HeaderName) : Bytes :=
  (utf8 ", ").intercalate ((headers.getAll name).map Subtype.val)

/-- `HttpSigner`. -/
structure HttpSigner (Key : Type) (verifyingKey : Key → FixedBytes 32) where
  key : Key
  bindRequest : Bool

section Signing

variable {Key : Type} {verifyingKey : Key → FixedBytes 32}

/-- The id of the key. -/
def HttpSigner.keyId (signer : HttpSigner Key verifyingKey) : Bytes :=
  utf8 "ed25519:" ++ base64Encode (verifyingKey signer.key).val

/-- A response that is signed, with its request and the time. -/
structure Signing (Key : Type) (verifyingKey : Key → FixedBytes 32) where
  signer : HttpSigner Key verifyingKey
  status : Nat
  headers : HeaderMap
  method : Method
  path : UriPath
  created : Nat
  triggered : headers.keys.any isTrigger = true

/-- One covered header comes to the components and to the base. -/
def coverHeader (headers : HeaderMap) (state : List Bytes × Bytes) (name : HeaderName) :
    List Bytes × Bytes :=
  (state.1 ++ [quoted name.val],
    state.2 ++ 10 :: quoted name.val ++ utf8 ": " ++ joinedValue headers name)

/-- The components and the lines of the base that belong to them. -/
def Signing.covered (signing : Signing Key verifyingKey) : List Bytes × Bytes :=
  let (components, base) := (coveredNames signing.headers).foldl (coverHeader signing.headers)
    ([utf8 "\"@status\""], utf8 "\"@status\": " ++ decimal signing.status)
  if signing.signer.bindRequest then
    (components ++ [utf8 "\"@method\";req", utf8 "\"@path\";req"],
      base ++ utf8 "\n\"@method\";req: " ++ signing.method.val ++
        utf8 "\n\"@path\";req: " ++ signing.path.val)
  else (components, base)

def Signing.components (signing : Signing Key verifyingKey) : List Bytes := signing.covered.1

def Signing.params (signing : Signing Key verifyingKey) : Bytes :=
  utf8 "(" ++ [32].intercalate signing.components ++ utf8 ");created=" ++
    decimal signing.created ++ utf8 ";keyid=\"" ++ signing.signer.keyId ++
    utf8 "\";alg=\"ed25519\""

def Signing.base (signing : Signing Key verifyingKey) : Bytes :=
  signing.covered.2 ++ utf8 "\n\"@signature-params\": " ++ signing.params

/-- `STANDARD.encode`: the other two symbols, and padding. -/
def base64Standard (bytes : Bytes) : Bytes :=
  let symbols := (base64Encode bytes).map fun symbol =>
    if symbol = 45 then 43 else if symbol = 95 then 47 else symbol
  symbols ++ List.replicate ((4 - symbols.length % 4) % 4) 61

/-- Why a response is not signed. -/
inductive SigningError
  | clockBeforeEpoch
  | invalidHeaderValue
deriving DecidableEq

/-- `HttpSigner::sign`, which gives the headers of the response.  The clock gives no time before
the epoch. -/
def HttpSigner.sign (ed25519 : Key → Bytes → FixedBytes 64)
    (signer : HttpSigner Key verifyingKey) (status : Nat) (headers : HeaderMap) (method : Method)
    (path : UriPath) (clock : Option Nat) : Except SigningError HeaderMap :=
  let headers := (headers.remove signatureName).remove signatureInputName
  if triggered : headers.keys.any isTrigger = true then
    match clock with
    | none => .error .clockBeforeEpoch
    | some created =>
        let signing : Signing Key verifyingKey :=
          { signer, status, headers, method, path, created, triggered }
        match parseHeaderValue (utf8 "sig1=" ++ signing.params) with
        | none => .error .invalidHeaderValue
        | some input =>
            let headers := headers.insert signatureInputName input
            let signature := base64Standard (ed25519 signer.key signing.base).val
            match parseHeaderValue (utf8 "sig1=:" ++ signature ++ utf8 ":") with
            | none => .error .invalidHeaderValue
            | some signature => .ok (headers.insert signatureName signature)
  else .ok headers

end Signing

/-- What a line of the base says. -/
inductive SignedLine
  | status (code : Nat)
  | header (name : HeaderName) (value : Bytes)
  | method (token : Method)
  | path (target : UriPath)
  | params (text : Bytes)

namespace SignedLine

def label : SignedLine → Bytes
  | status _ => utf8 "\"@status\""
  | header name _ => quoted name.val
  | method _ => utf8 "\"@method\";req"
  | path _ => utf8 "\"@path\";req"
  | params _ => utf8 "\"@signature-params\""

def content : SignedLine → Bytes
  | status code => decimal code
  | header _ value => value
  | method token => token.val
  | path target => target.val
  | params text => text

def text (line : SignedLine) : Bytes := line.label ++ utf8 ": " ++ line.content

end SignedLine

/-- The bytes of tokens are visible, and no colon, at sign or quotation mark is one of them. -/
theorem token_byte {byte : UInt8}
    (token : (65 ≤ byte.toNat ∧ byte.toNat ≤ 90) ∨ (97 ≤ byte.toNat ∧ byte.toNat ≤ 122) ∨
      isAsciiDigit byte = true ∨ isTokenMark byte = true) :
    (33 ≤ byte.toNat ∧ byte ≠ 127) ∧ byte ≠ 58 ∧ byte ≠ 64 ∧ byte ≠ 34 := by
  have all : ((List.range 256).all fun code =>
      let byte := UInt8.ofNat code
      decide ((65 ≤ byte.toNat ∧ byte.toNat ≤ 90) ∨ (97 ≤ byte.toNat ∧ byte.toNat ≤ 122) ∨
        isAsciiDigit byte = true ∨ isTokenMark byte = true →
        (33 ≤ byte.toNat ∧ byte ≠ 127) ∧ byte ≠ 58 ∧ byte ≠ 64 ∧ byte ≠ 34)) = true := by
    decide +kernel
  have here := of_decide_eq_true
    (List.all_eq_true.mp all byte.toNat (List.mem_range.mpr byte.toNat_lt))
  rw [UInt8.ofNat_toNat] at here
  exact here token

theorem HeaderName.byte (name : HeaderName) {byte : UInt8} (member : byte ∈ name.val) :
    (33 ≤ byte.toNat ∧ byte ≠ 127) ∧ byte ≠ 58 ∧ byte ≠ 64 ∧ byte ≠ 34 :=
  token_byte (.inr (name.property.2 byte member))

theorem quoted_injective : Function.Injective quoted := by
  intro left right same
  exact List.append_cancel_right (List.cons_inj_right 34 |>.mp same)

/-- A quoted name is no component of another kind. -/
theorem quoted_ne {name : HeaderName} {rest : Bytes} : quoted name.val ≠ 34 :: 64 :: rest := by
  obtain ⟨first, others, whole⟩ := List.exists_cons_of_ne_nil name.property.1
  intro same
  rw [quoted, whole] at same
  obtain ⟨-, same⟩ := List.cons.inj same
  obtain ⟨at_sign, -⟩ := List.cons.inj same
  exact (name.byte (whole ▸ List.mem_cons_self)).2.2.1 at_sign

namespace SignedLine

theorem colon_not_mem_label (line : SignedLine) : (58 : UInt8) ∉ line.label := by
  cases line with
  | header name value =>
      intro member
      rcases List.mem_cons.mp member with mark | inside
      · cases mark
      · rcases List.mem_append.mp inside with inside | mark
        · exact (name.byte inside).2.1 rfl
        · cases List.mem_singleton.mp mark
  | _ =>
      dsimp only [label]
      decide

theorem text_inj {left right : SignedLine} (same : left.text = right.text) :
    left.label = right.label ∧ left.content = right.content := by
  rw [text, text, List.append_assoc, List.append_assoc] at same
  obtain ⟨labels, contents⟩ :=
    append_cons_inj left.colon_not_mem_label right.colon_not_mem_label same
  exact ⟨labels, (List.cons.inj contents).2⟩

/-- A line tells all that it says. -/
theorem text_injective : Function.Injective text := by
  intro left right same
  obtain ⟨labels, contents⟩ := text_inj same
  cases left <;> cases right <;> dsimp only [label, content] at labels contents
  case status.status => rw [decimal_injective contents]
  case header.header => rw [Subtype.ext (quoted_injective labels), contents]
  case method.method => rw [Subtype.ext contents]
  case path.path => rw [Subtype.ext contents]
  case params.params => rw [contents]
  case header.status | header.method | header.path | header.params =>
    exact absurd labels quoted_ne
  case status.header | method.header | path.header | params.header =>
    exact absurd labels.symm quoted_ne
  all_goals exact absurd labels (by decide)

end SignedLine

section Base

variable {Key : Type} {verifyingKey : Key → FixedBytes 32}

/-- The lines of the covered headers. -/
def headerLines (headers : HeaderMap) (names : List HeaderName) : List SignedLine :=
  names.map fun name => .header name (joinedValue headers name)

/-- The lines of the base. -/
def Signing.lines (signing : Signing Key verifyingKey) : List SignedLine :=
  .status signing.status :: headerLines signing.headers (coveredNames signing.headers) ++
    (if signing.signer.bindRequest then [.method signing.method, .path signing.path] else []) ++
    [.params signing.params]

theorem foldl_coverHeader (headers : HeaderMap) (names : List HeaderName)
    (state : List Bytes × Bytes) :
    names.foldl (coverHeader headers) state =
      (state.1 ++ names.map (fun name => quoted name.val),
        state.2 ++ (headerLines headers names).flatMap fun line => 10 :: line.text) := by
  induction names generalizing state with
  | nil => simp [headerLines]
  | cons name names induction =>
      rw [List.foldl_cons, induction, coverHeader]
      simp only [headerLines, List.map_cons, List.flatMap_cons, SignedLine.text, SignedLine.label,
        SignedLine.content, List.cons_append, List.append_assoc, List.nil_append]

theorem Signing.components_eq (signing : Signing Key verifyingKey) :
    signing.components = utf8 "\"@status\"" ::
      (coveredNames signing.headers).map (fun name => quoted name.val) ++
      if signing.signer.bindRequest then [utf8 "\"@method\";req", utf8 "\"@path\";req"]
      else [] := by
  rw [components, covered, foldl_coverHeader]
  dsimp only
  split
  · rfl
  · rw [List.append_nil]
    rfl

/-- The base is made up of its lines. -/
theorem Signing.base_eq (signing : Signing Key verifyingKey) :
    signing.base = [10].intercalate (signing.lines.map SignedLine.text) := by
  rw [lines, List.cons_append, List.cons_append, List.map_cons, intercalate_cons_eq,
    List.flatMap_map, List.flatMap_append, List.flatMap_append, List.flatMap_singleton, base,
    covered, foldl_coverHeader]
  dsimp only
  split
  · simp only [List.flatMap_cons, List.flatMap_nil, List.append_nil, List.append_assoc]
    rfl
  · simp only [List.flatMap_nil, List.append_nil, List.append_assoc]
    rfl

theorem base64Symbol_visible (value : Nat) :
    33 ≤ (base64Symbol value).toNat ∧ base64Symbol value ≠ 127 := by
  rcases lt_or_ge value 64 with small | large
  · have all : ((List.range 64).all fun value =>
        decide (33 ≤ (base64Symbol value).toNat ∧ base64Symbol value ≠ 127)) = true := by decide
    exact of_decide_eq_true (List.all_eq_true.mp all value (List.mem_range.mpr small))
  · rw [base64Symbol, if_neg (by omega), if_neg (by omega), if_neg (by omega), if_neg (by omega)]
    decide

/-- A text that can be the value of a header and has no tabs. -/
def Visible (text : Bytes) : Prop := ∀ byte ∈ text, 32 ≤ byte.toNat ∧ byte ≠ 127

instance (text : Bytes) : Decidable (Visible text) :=
  decidable_of_iff ((text.all fun byte => 32 ≤ byte.toNat ∧ byte ≠ 127) = true)
    (by simp only [List.all_eq_true, decide_eq_true_eq, Visible])

theorem Visible.append {left right : Bytes} (first : Visible left) (second : Visible right) :
    Visible (left ++ right) := by
  intro byte member
  exact (List.mem_append.mp member).elim (first byte) (second byte)

theorem visible_decimal (value : Nat) : Visible (decimal value) := by
  intro byte member
  have digit := isAsciiDigit_of_mem_decimal member
  simp only [isAsciiDigit, decide_eq_true_eq] at digit
  refine ⟨by omega, ?_⟩
  rintro rfl
  exact absurd digit (by decide)

theorem visible_quoted (name : HeaderName) : Visible (quoted name.val) := by
  have inner : Visible name.val := fun byte member =>
    (name.byte member).1.imp_left fun low => by omega
  exact (show Visible [34] by decide).append (inner.append (by decide))

theorem visible_keyId (signer : HttpSigner Key verifyingKey) : Visible signer.keyId := by
  apply Visible.append (by decide)
  intro byte member
  obtain ⟨value, rfl⟩ := mem_base64Encode member
  exact (base64Symbol_visible value).imp_left fun low => by omega

namespace Signing

variable (signing : Signing Key verifyingKey)

theorem visible_components : ∀ component ∈ signing.components, Visible component := by
  intro component member
  rw [components_eq] at member
  rcases List.mem_append.mp member with front | request
  · rcases List.mem_cons.mp front with rfl | named
    · decide
    · obtain ⟨name, -, rfl⟩ := List.mem_map.mp named
      exact visible_quoted name
  · split at request
    · simp only [List.mem_cons, List.not_mem_nil, or_false] at request
      rcases request with rfl | rfl
      · decide
      · decide
    · cases request

theorem visible_params : Visible signing.params := by
  have list : Visible ([32].intercalate signing.components) := by
    intro byte member
    by_cases blank : byte ∈ [32]
    · rw [List.mem_singleton.mp blank]
      decide
    · obtain ⟨component, inside, found⟩ := mem_of_mem_intercalate member blank
      exact signing.visible_components component inside byte found
  rw [params]
  apply Visible.append _ (by decide)
  apply Visible.append _ (visible_keyId signing.signer)
  apply Visible.append _ (by decide)
  apply Visible.append _ (visible_decimal signing.created)
  apply Visible.append _ (by decide)
  exact Visible.append (by decide) list

/-- No value can imitate a line, as no line has a line feed. -/
theorem line_feed_not_mem : ∀ line ∈ signing.lines, (10 : UInt8) ∉ line.text := by
  have single {line : SignedLine} (content : (10 : UInt8) ∉ line.content) :
      (10 : UInt8) ∉ line.text := by
    intro member
    rcases List.mem_append.mp member with front | inside
    · rcases List.mem_append.mp front with inside | mark
      · cases line with
        | header name value => exact absurd (visible_quoted name 10 inside) (by decide)
        | _ =>
            dsimp only [SignedLine.label] at inside
            exact absurd inside (by decide)
      · exact absurd mark (by decide)
    · exact content inside
  intro line member
  apply single
  rcases List.mem_append.mp member with front | last
  · rcases List.mem_append.mp front with front | request
    · rcases List.mem_cons.mp front with rfl | header
      · exact fun inside => absurd (visible_decimal signing.status 10 inside) (by decide)
      · obtain ⟨name, -, rfl⟩ := List.mem_map.mp header
        intro inside
        obtain ⟨part, member, found⟩ := mem_of_mem_intercalate inside (by decide)
        obtain ⟨value, -, rfl⟩ := List.mem_map.mp member
        exact absurd (value.property 10 found) (by decide)
    · split at request
      · simp only [List.mem_cons, List.not_mem_nil, or_false] at request
        rcases request with rfl | rfl
        · exact fun inside => absurd (token_byte (signing.method.property 10 inside)).1 (by decide)
        · exact fun inside => absurd (signing.path.property 10 inside) (by decide)
      · cases request
  · rw [List.mem_singleton.mp last]
    exact fun inside => absurd (signing.visible_params 10 inside) (by decide)

/-- A base tells all of its lines. -/
theorem lines_of_base {first second : Signing Key verifyingKey} (same : first.base = second.base) :
    first.lines = second.lines := by
  have split (signing : Signing Key verifyingKey) :
      signing.base.splitOn 10 = signing.lines.map SignedLine.text := by
    rw [base_eq]
    apply List.splitOn_intercalate
    · intro text member
      obtain ⟨line, inside, rfl⟩ := List.mem_map.mp member
      exact signing.line_feed_not_mem line inside
    · simp [lines]
  exact List.map_injective_iff.mpr SignedLine.text_injective (by rw [← split, same, split])

end Signing

/-- The lines of headers. -/
def SignedLine.isHeader : SignedLine → Bool
  | header .. => true
  | _ => false

/-- The name of a line of a header. -/
def SignedLine.headerName : SignedLine → Option HeaderName
  | header name _ => some name
  | _ => none

theorem isHeader_of_headerLines {headers : HeaderMap} {names : List HeaderName} {line : SignedLine}
    (member : line ∈ headerLines headers names) : line.isHeader = true := by
  obtain ⟨name, -, rfl⟩ := List.mem_map.mp member
  rfl

/-- The lines of covered headers tell their names and values. -/
theorem headerLines_inj {first second : HeaderMap} {names others : List HeaderName}
    (same : headerLines first names = headerLines second others) :
    names = others ∧ ∀ name ∈ names, joinedValue first name = joinedValue second name := by
  have named (headers : HeaderMap) (names : List HeaderName) :
      (headerLines headers names).filterMap SignedLine.headerName = names := by
    rw [headerLines, List.filterMap_map]
    exact List.filterMap_some
  obtain rfl : names = others := by rw [← named first names, same, named]
  refine ⟨rfl, fun name member => ?_⟩
  exact (SignedLine.header.inj (List.map_inj_left.mp same name member)).2

/-- The lines of the request. -/
def Signing.requestLines (signing : Signing Key verifyingKey) : List SignedLine :=
  if signing.signer.bindRequest then [.method signing.method, .path signing.path] else []

theorem Signing.requestLines_inj {first second : Signing Key verifyingKey}
    (same : first.requestLines = second.requestLines) :
    first.signer.bindRequest = second.signer.bindRequest ∧
      (first.signer.bindRequest = true →
        first.method = second.method ∧ first.path = second.path) := by
  unfold requestLines at same
  cases bound : first.signer.bindRequest with
  | false =>
      rw [bound] at same
      cases other : second.signer.bindRequest with
      | false => exact ⟨rfl, nofun⟩
      | true =>
          rw [other] at same
          cases same
  | true =>
      rw [bound] at same
      cases other : second.signer.bindRequest with
      | false =>
          rw [other] at same
          cases same
      | true =>
          rw [other] at same
          obtain ⟨methods, rest⟩ := List.cons.inj same
          obtain ⟨paths, -⟩ := List.cons.inj rest
          exact ⟨rfl, fun _ => ⟨SignedLine.method.inj methods, SignedLine.path.inj paths⟩⟩

/-- What the lines of a base say one by one. -/
theorem Signing.lines_inj {first second : Signing Key verifyingKey}
    (same : first.lines = second.lines) :
    first.status = second.status ∧
      headerLines first.headers (coveredNames first.headers) =
        headerLines second.headers (coveredNames second.headers) ∧
      first.requestLines = second.requestLines ∧ first.params = second.params := by
  have request (signing : Signing Key verifyingKey) :
      ∀ line ∈ signing.requestLines, line.isHeader = false := by
    intro line member
    unfold requestLines at member
    split at member
    · simp only [List.mem_cons, List.not_mem_nil, or_false] at member
      rcases member with rfl | rfl
      · rfl
      · rfl
    · cases member
  obtain ⟨front, last⟩ := List.append_inj' same rfl
  obtain ⟨status, middle⟩ := List.cons.inj front
  have headers (signing : Signing Key verifyingKey) :
      (headerLines signing.headers (coveredNames signing.headers) ++
        signing.requestLines).filter SignedLine.isHeader =
        headerLines signing.headers (coveredNames signing.headers) := by
    rw [List.filter_append, List.filter_eq_self.mpr fun line member =>
      isHeader_of_headerLines member, List.filter_eq_nil_iff.mpr fun line member => by
        rw [request signing line member]
        decide, List.append_nil]
  have covered : headerLines first.headers (coveredNames first.headers) =
      headerLines second.headers (coveredNames second.headers) := by
    rw [← headers first, ← headers second]
    exact congrArg _ middle
  have requests : first.requestLines = second.requestLines := by
    rw [covered] at middle
    exact List.append_cancel_left middle
  exact ⟨SignedLine.status.inj status, covered, requests,
    SignedLine.params.inj (List.cons.inj last).1⟩

/-- The parameters of a signature tell its time and its key behind the components. -/
theorem Signing.params_inj {first second : Signing Key verifyingKey}
    (components : first.components = second.components) (same : first.params = second.params) :
    first.created = second.created ∧ first.signer.keyId = second.signer.keyId := by
  have free (value : Nat) : (59 : UInt8) ∉ decimal value := by
    intro member
    exact absurd (isAsciiDigit_of_mem_decimal member) (by decide)
  simp only [params, components, List.append_assoc] at same
  have times := List.append_cancel_left (List.append_cancel_left (List.append_cancel_left same))
  obtain ⟨created, behind⟩ := append_cons_inj (free first.created) (free second.created) times
  have keys : utf8 "keyid=\"" ++ (first.signer.keyId ++ utf8 "\";alg=\"ed25519\"") =
      utf8 "keyid=\"" ++ (second.signer.keyId ++ utf8 "\";alg=\"ed25519\"") := behind
  exact ⟨decimal_injective created, List.append_cancel_right (List.append_cancel_left keys)⟩

/-- A name that is present is a component once when it is covered, and no component otherwise. -/
theorem Signing.count_components (signing : Signing Key verifyingKey) {name : HeaderName}
    (present : name ∈ signing.headers.keys) :
    signing.components.count (quoted name.val) = if isCovered name then 1 else 0 := by
  have others : (if signing.signer.bindRequest then
      [utf8 "\"@method\";req", utf8 "\"@path\";req"] else []).count (quoted name.val) = 0 := by
    apply List.count_eq_zero_of_not_mem
    intro member
    split at member
    · simp only [List.mem_cons, List.not_mem_nil, or_false] at member
      rcases member with same | same
      · exact quoted_ne same
      · exact quoted_ne same
    · cases member
  have distinct : signing.headers.keys.Nodup := signing.headers.distinct
  have sorted := List.perm_insertionSort (fun left right : HeaderName => left.val ≤ right.val)
    (signing.headers.keys.filter isCovered)
  have names : ((coveredNames signing.headers).map fun name => quoted name.val).count
      (quoted name.val) = (coveredNames signing.headers).count name :=
    List.count_map_of_injective _ _ (quoted_injective.comp Subtype.val_injective) name
  have status : utf8 "\"@status\"" ≠ quoted name.val := fun same => quoted_ne same.symm
  rw [components_eq, List.cons_append, List.count_cons_of_ne status, List.count_append, others, names,
    coveredNames, sorted.count_eq]
  split
  · next covered =>
      exact List.count_eq_one_of_mem (distinct.filter _) (List.mem_filter.mpr ⟨present, covered⟩)
  · next uncovered =>
      apply List.count_eq_zero_of_not_mem
      intro member
      exact uncovered (List.mem_filter.mp member).2

theorem parseHeaderValue_of_visible {text : Bytes} (visible : Visible text) :
    ∃ value : HeaderValue, value.val = text ∧ parseHeaderValue text = some value :=
  ⟨⟨text, fun byte member => .inl (visible byte member)⟩, rfl, dif_pos _⟩

theorem visible_base64Standard (bytes : Bytes) : Visible (base64Standard bytes) := by
  apply Visible.append
  · intro byte member
    obtain ⟨symbol, inside, rfl⟩ := List.mem_map.mp member
    obtain ⟨value, rfl⟩ := mem_base64Encode inside
    split
    · decide
    · split
      · decide
      · exact (base64Symbol_visible value).imp_left fun low => by omega
  · intro byte member
    rw [(List.mem_replicate.mp member).2]
    decide

/-- What is signed is the base of the response, and the response gets the parameters with it. -/
theorem HttpSigner.sign_of_triggered (ed25519 : Key → Bytes → FixedBytes 64)
    (signing : Signing Key verifyingKey) {headers : HeaderMap}
    (stripped : (headers.remove signatureName).remove signatureInputName = signing.headers) :
    ∃ input signature : HeaderValue,
      input.val = utf8 "sig1=" ++ signing.params ∧
      signature.val = utf8 "sig1=:" ++
        base64Standard (ed25519 signing.signer.key signing.base).val ++ utf8 ":" ∧
      signing.signer.sign ed25519 signing.status headers signing.method signing.path
        (some signing.created) =
        .ok ((signing.headers.insert signatureInputName input).insert signatureName signature) := by
  obtain ⟨signer, status, kept, method, path, created, triggered⟩ := signing
  obtain rfl : _ = kept := stripped
  obtain ⟨input, inputText, parsedInput⟩ := parseHeaderValue_of_visible
    (Visible.append (show Visible (utf8 "sig1=") by decide)
      (Signing.visible_params ⟨signer, status, _, method, path, created, triggered⟩))
  obtain ⟨signature, signatureText, parsedSignature⟩ := parseHeaderValue_of_visible
    (((show Visible (utf8 "sig1=:") by decide).append (visible_base64Standard (ed25519 signer.key
      (Signing.base ⟨signer, status, _, method, path, created, triggered⟩)).val)).append
        (show Visible (utf8 ":") by decide))
  refine ⟨input, signature, inputText, signatureText, ?_⟩
  simp only [sign, dif_pos triggered, parsedInput, parsedSignature]

/-- Equal bases are about one status, the same covered headers with the same values, one request
where requests are bound, one time and one key.  Every trigger, tag or name-resolution header that
is present is covered once, whatever the other headers are. -/
theorem signature_base_binds :
    (∀ first second : Signing Key verifyingKey, first.base = second.base →
      first.status = second.status ∧
      coveredNames first.headers = coveredNames second.headers ∧
      (∀ name ∈ coveredNames first.headers,
        joinedValue first.headers name = joinedValue second.headers name) ∧
      first.signer.bindRequest = second.signer.bindRequest ∧
      (first.signer.bindRequest = true →
        first.method = second.method ∧ first.path = second.path) ∧
      first.created = second.created ∧ first.signer.keyId = second.signer.keyId) ∧
    ∀ signing : Signing Key verifyingKey, ∀ name ∈ signing.headers.keys,
      (isTrigger name = true ∨ (utf8 "x-arweave-tag-").isPrefixOf name.val = true) →
        signing.components.count (quoted name.val) = 1 := by
  constructor
  · intro first second same
    obtain ⟨status, headers, request, params⟩ := Signing.lines_inj (Signing.lines_of_base same)
    obtain ⟨names, values⟩ := headerLines_inj headers
    obtain ⟨bound, bindings⟩ := Signing.requestLines_inj request
    have components : first.components = second.components := by
      rw [Signing.components_eq, Signing.components_eq, names, bound]
    obtain ⟨created, keyId⟩ := Signing.params_inj components params
    exact ⟨status, names, values, bound, bindings, created, keyId⟩
  · intro signing name present named
    have covered : isCovered name = true := by
      simp only [isTrigger, isCovered, Bool.or_eq_true] at named ⊢
      tauto
    rw [signing.count_components present, if_pos covered]

end Base

/-- A response with two covered headers, one of them twice. -/
def exampleHeaders (turned : Bool) : HeaderMap :=
  let verified : HeaderName × List HeaderValue :=
    (⟨utf8 "x-ar-io-verified", by decide +kernel⟩, [⟨utf8 "true", by decide +kernel⟩])
  let tag : HeaderName × List HeaderValue := (⟨utf8 "x-arweave-tag-app-name", by decide +kernel⟩,
    [⟨utf8 "first", by decide +kernel⟩, ⟨utf8 "second", by decide +kernel⟩])
  { fields := if turned then [tag, verified] else [verified, tag]
    distinct := by cases turned <;> decide
    filled := by cases turned <;> decide }

def exampleSigning (turned : Bool) :
    Signing Unit fun _ => ⟨List.replicate 32 7, List.length_replicate⟩ where
  signer := ⟨(), true⟩
  status := 200
  headers := exampleHeaders turned
  method := ⟨utf8 "GET", by decide +kernel⟩
  path := ⟨utf8 "/raw/id", by decide +kernel⟩
  created := 1700000000
  triggered := by cases turned <;> decide

theorem signature_base_binds_sample :
    coveredNames (exampleHeaders false) = coveredNames (exampleHeaders true) ∧
      (exampleSigning false).components.count (quoted (utf8 "x-arweave-tag-app-name")) = 1 := by
  obtain ⟨binds, once⟩ := @signature_base_binds Unit fun _ => ⟨List.replicate 32 7, rfl⟩
  constructor
  · exact (binds (exampleSigning false) (exampleSigning true) rfl).2.1
  · exact once (exampleSigning false) ⟨utf8 "x-arweave-tag-app-name", by decide +kernel⟩
      (by decide) (.inr (by decide))

end ArIoGateway
