import ArIoGateway.ByteRanges
import ArIoGateway.DataItems
import ArIoGateway.Foundation.Intervals
import Mathlib.Data.List.GetD

/-!
# Responses to byte ranges

A response carries a verified content, one range of it, or several ranges as the parts of a
multipart body.  Its body is a list of slices that a polling reader opens one after another.
-/

namespace ArIoGateway

open Octets

/-- What a content does when it is polled: whether it is open yet, and how many bytes after the first
it delivers, if any. -/
structure Turn where
  opened : Bool
  delivered : Option Nat
deriving DecidableEq

/-- A turn without waiting. -/
def Turn.Eager (turn : Turn) : Prop := turn.opened = true ∧ turn.delivered.isSome = true

instance (turn : Turn) : Decidable turn.Eager := inferInstanceAs (Decidable (_ ∧ _))

/-- Poll the reader of a content that has `left` to deliver; no value is a pending read. -/
def pollContent (capacity : Nat) (turn : Turn) (left : Bytes) : Option (Bytes × Bytes) :=
  if capacity = 0 ∨ left = [] then some ([], left)
  else turn.delivered.map fun more =>
    let count := min (more + 1) (min capacity left.length)
    (left.take count, left.drop count)

/-- The contents of a body: one that is read, one that is being opened, and those behind. -/
structure SequentialReader where
  reader : Option Bytes
  remaining : List Bytes
  opening : Option Bytes
deriving DecidableEq

inductive Poll where
  | pending
  | ready (bytes : Bytes)
deriving DecidableEq

namespace SequentialReader

/-- One round of `poll_read`, without a result when it goes on to the next content. -/
def round (capacity : Nat) (turn : Turn) (state : SequentialReader) :
    Option (Poll × SequentialReader) :=
  let opened :=
    match state.opening with
    | some content =>
        if turn.opened then some { state with reader := some content, opening := none } else none
    | none => some state
  match opened with
  | none => some (.pending, state)
  | some state =>
      match state.reader with
      | none => none
      | some left =>
          match pollContent capacity turn left with
          | none => some (.pending, state)
          | some (bytes, left) =>
              if bytes = [] then none
              else some (.ready bytes, { state with reader := some left })

/-- The rounds of `poll_read`; the turn of a round is found by the number of contents behind it. -/
def rounds (capacity : Nat) (turns : List Turn) (reader opening : Option Bytes) :
    List Bytes → Poll × SequentialReader
  | [] =>
      match round capacity (turns.getD 0 ⟨true, some 0⟩) ⟨reader, [], opening⟩ with
      | some result => result
      | none => (.ready [], ⟨none, [], none⟩)
  | content :: remaining =>
      match round capacity (turns.getD (remaining.length + 1) ⟨true, some 0⟩)
        ⟨reader, content :: remaining, opening⟩ with
      | some result => result
      | none => rounds capacity turns none (some content) remaining

def pollRead (capacity : Nat) (turns : List Turn) (state : SequentialReader) :
    Poll × SequentialReader :=
  if capacity = 0 then (.ready [], state)
  else rounds capacity turns state.reader state.opening state.remaining

/-- Read with buffers of these capacities: the bytes in order, and whether the body has ended. -/
def read : List (Nat × List Turn) → SequentialReader → Bytes × Bool
  | [], _ => ([], false)
  | (capacity, turns) :: polls, state =>
      match state.pollRead capacity turns with
      | (.pending, after) => read polls after
      | (.ready bytes, after) =>
          if capacity ≠ 0 ∧ bytes = [] then ([], true)
          else
            let (behind, ended) := read polls after
            (bytes ++ behind, ended)

/-- The reader of a body, with its first content open. -/
def ofBody : List Bytes → SequentialReader
  | [] => ⟨none, [], none⟩
  | content :: remaining => ⟨some content, remaining, none⟩

end SequentialReader

structure VerifiedData where
  id : String
  contentType : String
  contentEncoding : Option String
  contentLength : Nat
  etag : String
  stableAnchor : Bool
  cacheHit : Bool
  bytes : Bytes

/-- A resolved name, with the seconds for which it stays resolved. -/
structure Resolution where
  resolvedId : String
  maxAge : Nat

/-- The headers of a request that decide which part of a content is served. -/
structure RequestHeaders where
  range : Option Bytes
  ifRange : Option Bytes
  ifNoneMatch : Option Bytes

structure Response where
  status : Nat
  headers : List (String × String)
  body : List Bytes
deriving DecidableEq

/-- The values of a header. -/
def Response.values (response : Response) (name : String) : List String :=
  (response.headers.filter fun header => header.1 = name).map Prod.snd

/-- Texts that are values of headers, `HeaderValue::from_str`. -/
def isHeaderValue (value : String) : Bool :=
  (utf8 value).all fun byte => (32 ≤ byte.toNat ∧ byte ≠ 127) ∨ byte = 9

/-- `Builder::body`, which fails for a header whose text is no value. -/
def buildResponse (status : Nat) (headers : List (String × String)) (body : List Bytes)
    (message : String) : Checked Response := do
  Checked.ensure (headers.all (fun header => isHeaderValue header.2) = true) message
  pure ⟨status, headers, body⟩

/-- A content in slices: nothing for an empty one. -/
def contentBody (content : Bytes) : List Bytes := if content = [] then [] else [content]

/-- `checked_add` on the length of a body. -/
def addLength (left right : Nat) : Checked Nat := do
  Checked.ensure (left + right < 2 ^ 64) "multipart response length overflow"
  pure (left + right)

/-- The header of the part for a range; all but the first begin on a line of their own. -/
def partHeader (total : Nat) (contentType boundary : String) (first : Bool)
    (range : Nat × Nat) : Bytes :=
  let separator := if first then "" else "\r\n"
  utf8 (separator ++ "--" ++ boundary ++ "\r\nContent-Type: " ++ contentType ++
    "\r\nContent-Range: bytes " ++ decimalString range.1 ++ "-" ++ decimalString range.2 ++ "/" ++
    decimalString total ++ "\r\n\r\n")

def closingBoundary (boundary : String) : Bytes := utf8 ("\r\n--" ++ boundary ++ "--\r\n")

/-- The loop of `multipart_content` over the ranges, with the length of the parts before. -/
def multipartParts (content : Bytes) (contentType boundary : String) :
    (first : Bool) → (length : Nat) → List (Nat × Nat) → Checked (List Bytes × Nat)
  | _, length, [] => pure ([], length)
  | first, length, range :: ranges => do
      let header := partHeader content.length contentType boundary first range
      let slice ← sliceContent content range.1 (range.2 + 1)
      let length ← addLength length header.length
      let length ← addLength length slice.length
      let (parts, length) ← multipartParts content contentType boundary false length ranges
      pure (header :: slice :: parts, length)

def multipartContent (content : Bytes) (ranges : List (Nat × Nat)) (contentType boundary : String) :
    Checked (List Bytes × Nat) := do
  Checked.ensure (isHeaderValue contentType = true) "invalid multipart content type"
  let (parts, length) ← multipartParts content contentType boundary true 0 ranges
  let closing := closingBoundary boundary
  let length ← addLength length closing.length
  pure (parts ++ [closing], length)

/-- The text between quotes. -/
def unquoted (value : String) : Option String :=
  match value.toList with
  | '"' :: rest => if rest.getLast? = some '"' then some (String.ofList rest.dropLast) else none
  | _ => none

/-- Base64 with padding in the alphabet of `STANDARD`. -/
def standardBase64 (bytes : Bytes) : String :=
  let symbols := (base64Encode bytes).map fun symbol =>
    if symbol = 45 then '+' else if symbol = 95 then '/' else Char.ofNat symbol.toNat
  String.ofList (symbols ++ List.replicate ((4 - symbols.length % 4) % 4) '=')

/-- Declare an encoding for a body that begins like one. -/
def servedAs (body : Bytes) (coding : String) (magic : Bytes) : Option String :=
  let head := body.take (min body.length magic.length)
  if head = magic.take head.length then some coding else none

/-- The encodings that are declared, with the bytes that such a body begins with. -/
def servedContentEncoding (tagged : String) (body : Bytes) : Option String :=
  let name := String.ofList ((trim tagged.toList).map Char.toLower)
  if name = "gzip" then servedAs body "gzip" [0x1f, 0x8b]
  else if name = "zstd" then servedAs body "zstd" [0x28, 0xb5, 0x2f, 0xfd]
  else if name = "br" then servedAs body "br" []
  else if name = "deflate" then servedAs body "deflate" []
  else none

def responseContentType (value : String) : String :=
  let parts := value.toList.splitOn ';'
  let mediaType := parts.headD []
  let hasCharset := parts.tail.any fun parameter =>
    match splitOnce '=' parameter with
    | some (name, _) => trim name = "charset".toList
    | none => false
  if hasCharset = false ∧
    ("text/".toList <+: mediaType ∨ "application/javascript".toList <+: mediaType) then
    value ++ "; charset=utf-8"
  else value

/-- The headers of every response with a verified content. -/
def verifiedHeaders (verified : VerifiedData) (resolution : Option Resolution)
    (etag digest contentDigest : String) (ranged : Bool) : List (String × String) :=
  [("accept-ranges", "bytes"), ("etag", etag),
    (if ranged then "repr-digest" else "content-digest", contentDigest),
    ("x-ar-io-data-id", verified.id), ("x-ar-io-digest", digest),
    ("x-ar-io-stable", if verified.stableAnchor then "true" else "false"),
    ("x-ar-io-verified", "true"), ("x-ar-io-trusted", "true"),
    ("x-cache", if verified.cacheHit then "HIT" else "MISS"), ("x-ar-io-hops", "1"),
    match resolution with
    | some resolution => ("cache-control", "public, max-age=" ++ decimalString resolution.maxAge)
    | none =>
        let visibility := if 100 * 1024 * 1024 < verified.contentLength then "private" else "public"
        let maxAge := if verified.stableAnchor then "max-age=2592000, immutable" else "max-age=43200"
        ("cache-control", visibility ++ ", " ++ maxAge)]

/-- The range header that is obeyed: one in bytes, whose condition holds. -/
def rangeHeader (request : RequestHeaders) (etag : String) : Option Bytes :=
  request.range.filter fun _ =>
    (match request.ifRange with
      | none => true
      | some condition => condition = utf8 etag) && usesByteRange request.range

/-- Read the header as text and take its ranges in a content of length `total`. -/
def requestedRanges (header : Bytes) (total : Nat) : Except ByteRangeError (List (Nat × Nat)) :=
  match headerToStr header with
  | none => .error .malformed
  | some text => parseByteRanges text total

/-- The answer to a range header that is not accepted. -/
def rangeError (headers : List (String × String)) (total : Nat) (error : ByteRangeError) :
    Checked Response :=
  let (status, message, headers) : Nat × String × List (String × String) :=
    match error with
    | .malformed => (400, "Malformed 'range' header", headers)
    | .unsatisfiable => (416, "Range not satisfiable",
        headers ++ [("content-range", "bytes */" ++ decimalString total)])
  buildResponse status
    (headers ++ [("content-type", "text/plain; charset=utf-8"),
      ("content-length", decimalString (utf8 message).length)])
    [utf8 message] "failed to construct range error response"

/-- The encoding of the content, when its bytes do not rule it out. -/
def encodingHeaders (verified : VerifiedData) : List (String × String) :=
  match verified.contentEncoding.bind (servedContentEncoding · verified.bytes) with
  | some encoding => [("content-encoding", encoding)]
  | none => []

/-- The answer that carries the content, or the ranges of it. -/
def contentResponse (verified : VerifiedData) (headers : List (String × String)) (digest : String)
    (ranges : Option (List (Nat × Nat))) : Checked Response :=
  let headers := headers ++ encodingHeaders verified
  let contentType := responseContentType verified.contentType
  match ranges with
  | some (first :: second :: ranges) => do
      let boundary := "ar-io-" ++ digest
      let (parts, contentLength) ←
        multipartContent verified.bytes (first :: second :: ranges) verified.contentType boundary
      buildResponse 206
        (headers ++ [("content-type", "multipart/byteranges; boundary=" ++ boundary),
          ("content-length", decimalString contentLength)])
        parts "failed to construct multipart response"
  | some [range] => do
      let (start, finish) := range
      let slice ← sliceContent verified.bytes start (finish + 1)
      buildResponse 206
        (headers ++ [("content-type", contentType),
          ("content-length", decimalString (finish - start + 1)),
          ("content-range", "bytes " ++ decimalString start ++ "-" ++ decimalString finish ++ "/" ++
            decimalString verified.contentLength)])
        (contentBody slice) "failed to construct partial response"
  | some [] => .error "no ranges"
  | none =>
      buildResponse 200
        (headers ++ [("content-type", contentType),
          ("content-length", decimalString verified.contentLength)])
        (contentBody verified.bytes) "failed to construct HTTP response"

/-- The tag of a response; a name that points elsewhere has another. -/
def responseEtag (verified : VerifiedData) (resolution : Option Resolution) (digest : String) :
    String :=
  match resolution with
  | some resolution => "\"" ++ digest ++ "." ++ resolution.resolvedId ++ "\""
  | none => verified.etag

def verifiedResponse (verified : VerifiedData) (resolution : Option Resolution)
    (request : RequestHeaders) : Checked Response := do
  Checked.ensure (verified.bytes.length = verified.contentLength)
    "verified content length mismatch"
  let digest ← Checked.context (unquoted verified.etag) "verified ETag is malformed"
  let digestBytes ← Checked.context (base64Decode (utf8 digest)) "verified ETag digest is malformed"
  Checked.ensure (digestBytes.length = 32) "verified digest has the wrong size"
  let contentDigest := "sha-256=:" ++ standardBase64 digestBytes ++ ":"
  let etag := responseEtag verified resolution digest
  let header := rangeHeader request etag
  let headers := verifiedHeaders verified resolution etag digest contentDigest header.isSome
  match header.map (requestedRanges · verified.contentLength) with
  | some (.error error) => rangeError headers verified.contentLength error
  | some (.ok ranges) =>
      if request.ifNoneMatch = some (utf8 etag) then
        buildResponse 304 headers [] "failed to construct not-modified response"
      else contentResponse verified headers digest (some ranges)
  | none =>
      if request.ifNoneMatch = some (utf8 etag) then
        buildResponse 304 headers [] "failed to construct not-modified response"
      else contentResponse verified headers digest none

structure PublishedFile where
  size : Nat
  sha256 : String
  modifiedNs : Int
  /-- The `index_digest_field` of the hash. -/
  digestField : String

def indexResponse (status : Nat) (contentType body : String) : Response where
  status := status
  headers := [("cache-control", "no-store"), ("content-type", contentType)]
  body := [utf8 body]

/-- `error_response`. -/
def errorResponse (status : Nat) (message : String) : Response where
  status := status
  headers := (if status = 404 then [("cache-control", "public, max-age=60, must-revalidate")]
      else []) ++
    [("content-type",
        if status = 404 then "text/html; charset=utf-8" else "text/plain; charset=utf-8"),
      ("content-length", decimalString (utf8 message).length)]
  body := [utf8 message]

/-- Sort the ranges and merge those that touch, as `serve_index_file` does. -/
def mergeRanges (ranges : List (Nat × Nat)) : List (Nat × Nat) := Intervals.merge ranges

/-- The only range after merging; several ranges are answered with the whole file. -/
def singleRange (ranges : List (Nat × Nat)) : Option (Nat × Nat) :=
  match mergeRanges ranges with
  | [single] => some single
  | _ => none

/-- The answer with one range of a published file, or with all of it, when `request_permit` grants a
permit for its body. -/
def publishedFileResponse (entry : PublishedFile) (file : Bytes) (headers : List (String × String))
    (cacheControl : String) (head permitted : Bool) (range : Option (Nat × Nat)) : Response :=
  let size := entry.size
  let (start, finish) := range.getD (0, size - 1)
  let length := if size = 0 then 0 else finish - start + 1
  let headers := headers ++ [("cache-control", cacheControl), ("x-ar-io-index-file", entry.sha256),
    ("content-length", decimalString length)]
  let headers := headers ++
    match range with
    | some _ => [("content-range", "bytes " ++ decimalString start ++ "-" ++ decimalString finish ++
        "/" ++ decimalString size)]
    | none => [("content-digest", entry.digestField)]
  let status := if range.isSome then 206 else 200
  if head = true ∨ length = 0 then ⟨status, headers, []⟩
  else if permitted = false then errorResponse 503 "Service Unavailable"
  else
    match sliceContent file start (finish + 1) with
    | .ok content => ⟨status, headers, contentBody content⟩
    | .error _ => ⟨500, [("content-length", "0")], []⟩

/-- `serve_index_file` for a file with the opened bytes and time, and what `request_permit` says. -/
def serveIndexFile (entry : PublishedFile) (opened : Option (Bytes × Int)) (cacheControl : String)
    (head permitted : Bool) (request : RequestHeaders) : Response :=
  match opened.filter fun file => file.1.length = entry.size ∧ file.2 = entry.modifiedNs with
  | none =>
      { status := 503
        headers := [("cache-control", "no-store"), ("retry-after", "60"),
          ("content-type", "text/plain")]
        body := [utf8 "Index file is being updated"] }
  | some (file, _) =>
      let etag := "\"" ++ entry.sha256 ++ "\""
      let headers := [("etag", etag), ("accept-ranges", "bytes"),
        ("content-type", "application/octet-stream"), ("repr-digest", entry.digestField)]
      if request.ifNoneMatch.bind headerToStr = some etag.toList then
        ⟨304, headers ++ [("cache-control", cacheControl)], []⟩
      else
        if usesByteRange request.range = true ∧ 0 < entry.size then
          match parseByteRanges ((request.range.bind headerToStr).getD []) entry.size with
          | .ok ranges =>
              publishedFileResponse entry file headers cacheControl head permitted
                (singleRange ranges)
          | .error .malformed => indexResponse 400 "text/plain" "Malformed 'range' header"
          | .error .unsatisfiable =>
              let response := indexResponse 416 "text/plain" "Range not satisfiable"
              { response with headers := response.headers ++
                  [("content-range", "bytes */" ++ decimalString entry.size)] }
        else publishedFileResponse entry file headers cacheControl head permitted none

/-! ## What the reader delivers -/

namespace SequentialReader

/-- The bytes that a reader has still to deliver. -/
def left (state : SequentialReader) : Bytes :=
  (state.opening.or state.reader).getD [] ++ state.remaining.flatten

/-- The results of one round. -/
inductive Rounded (capacity : Nat) (turn : Turn) (state : SequentialReader) :
    Option (Poll × SequentialReader) → Prop
  | next : (state.opening.or state.reader).getD [] = [] → Rounded capacity turn state none
  | waits {after : SequentialReader} : ¬turn.Eager → after.left = state.left →
      Rounded capacity turn state (some (.pending, after))
  | reads {bytes : Bytes} {after : SequentialReader} : bytes ≠ [] → bytes.length ≤ capacity →
      bytes ++ after.left = state.left →
      Rounded capacity turn state (some (.ready bytes, after))

theorem rounded_of_reader {capacity : Nat} (positive : 0 < capacity) (turn : Turn)
    (reader : Option Bytes) (remaining : List Bytes) :
    Rounded capacity turn ⟨reader, remaining, none⟩
      (round capacity turn ⟨reader, remaining, none⟩) := by
  cases reader with
  | none => exact .next rfl
  | some left =>
      rw [round]
      simp only [pollContent]
      by_cases empty : left = []
      · subst empty
        simp only [or_true, if_true]
        exact .next rfl
      · rw [if_neg (not_or.mpr ⟨by omega, empty⟩)]
        cases delivered : turn.delivered with
        | none =>
            refine .waits (fun eager => ?_) rfl
            have some := eager.2
            rw [delivered] at some
            contradiction
        | some more =>
            have long := List.length_pos_iff.mpr empty
            have taken : left.take (min (more + 1) (min capacity left.length)) ≠ [] := by
              rw [← List.length_pos_iff, List.length_take]
              omega
            rw [Option.map_some]
            simp only [if_neg taken]
            refine .reads taken ?_ ?_
            · rw [List.length_take]
              omega
            · simp [SequentialReader.left, ← List.append_assoc]

theorem rounded {capacity : Nat} (positive : 0 < capacity) (turn : Turn)
    (state : SequentialReader) : Rounded capacity turn state (round capacity turn state) := by
  obtain ⟨reader, remaining, opening⟩ := state
  cases opening with
  | none => exact rounded_of_reader positive turn reader remaining
  | some content =>
      cases opened : turn.opened with
      | false =>
          rw [round]
          simp only [opened]
          refine .waits (fun eager => ?_) rfl
          rw [eager.1] at opened
          contradiction
      | true =>
          have same : round capacity turn ⟨reader, remaining, some content⟩ =
              round capacity turn ⟨some content, remaining, none⟩ := by
            simp only [round, opened, if_true]
          have step := rounded_of_reader positive turn (some content) remaining
          rw [← same] at step
          generalize round capacity turn ⟨reader, remaining, some content⟩ = result at step ⊢
          cases step with
          | next empty => exact .next empty
          | waits late kept => exact .waits late kept
          | reads some bounded moved => exact .reads some bounded moved

/-- The results of one poll with room for bytes. -/
inductive Polled (capacity : Nat) (turns : List Turn) (state : SequentialReader) :
    Poll × SequentialReader → Prop
  | waits {after : SequentialReader} : (¬∀ turn ∈ turns, turn.Eager) → after.left = state.left →
      Polled capacity turns state (.pending, after)
  | reads {bytes : Bytes} {after : SequentialReader} : bytes ≠ [] → bytes.length ≤ capacity →
      bytes ++ after.left = state.left → Polled capacity turns state (.ready bytes, after)
  | ends {after : SequentialReader} : state.left = [] → Polled capacity turns state (.ready [], after)

theorem eager_getD {turns : List Turn} {place : Nat}
    (late : ¬(turns.getD place ⟨true, some 0⟩).Eager) : ¬∀ turn ∈ turns, turn.Eager := by
  intro eager
  by_cases inside : place < turns.length
  · rw [List.getD_eq_getElem _ _ inside] at late
    exact late (eager _ (List.getElem_mem inside))
  · rw [List.getD_eq_default _ _ (not_lt.mp inside)] at late
    exact late (by decide)

theorem polled_rounds {capacity : Nat} (positive : 0 < capacity) (turns : List Turn)
    (reader opening : Option Bytes) (remaining : List Bytes) :
    Polled capacity turns ⟨reader, remaining, opening⟩
      (rounds capacity turns reader opening remaining) := by
  induction remaining generalizing reader opening with
  | nil =>
      rw [rounds]
      have step := rounded positive (turns.getD 0 ⟨true, some 0⟩) ⟨reader, [], opening⟩
      cases result : round capacity (turns.getD 0 ⟨true, some 0⟩) ⟨reader, [], opening⟩ with
      | none =>
          rw [result] at step
          cases step with
          | next empty => exact .ends (by simpa [left] using empty)
      | some result' =>
          rw [result] at step
          cases step with
          | waits late kept => exact .waits (eager_getD late) kept
          | reads some bounded moved => exact .reads some bounded moved
  | cons content remaining induction =>
      rw [rounds]
      have step := rounded positive (turns.getD (remaining.length + 1) ⟨true, some 0⟩)
        ⟨reader, content :: remaining, opening⟩
      cases result : round capacity (turns.getD (remaining.length + 1) ⟨true, some 0⟩)
          ⟨reader, content :: remaining, opening⟩ with
      | none =>
          rw [result] at step
          cases step with
          | next empty =>
              have same : (⟨reader, content :: remaining, opening⟩ : SequentialReader).left =
                  (⟨none, remaining, some content⟩ : SequentialReader).left := by
                rw [left, empty]
                rfl
              have behind := induction none (some content)
              simp only
              generalize rounds capacity turns none (some content) remaining = result at behind ⊢
              cases behind with
              | waits late kept => exact .waits late (kept.trans same.symm)
              | reads some bounded moved => exact .reads some bounded (moved.trans same.symm)
              | ends empty => exact .ends (same.trans empty)
      | some result' =>
          rw [result] at step
          cases step with
          | waits late kept => exact .waits (eager_getD late) kept
          | reads some bounded moved => exact .reads some bounded moved

theorem polled {capacity : Nat} (positive : 0 < capacity) (turns : List Turn)
    (state : SequentialReader) : Polled capacity turns state (state.pollRead capacity turns) := by
  rw [pollRead, if_neg (by omega)]
  exact polled_rounds positive turns state.reader state.opening state.remaining

/-- Polls with room for bytes at which no content waits. -/
def Prompt (poll : Nat × List Turn) : Prop := 0 < poll.1 ∧ ∀ turn ∈ poll.2, turn.Eager

instance (poll : Nat × List Turn) : Decidable (Prompt poll) :=
  inferInstanceAs (Decidable (_ ∧ _))

/-- Reading gives the bytes that are left from their beginning, ends only behind the last of them,
and ends once more polls than bytes have been prompt. -/
theorem read_spec (polls : List (Nat × List Turn)) (state : SequentialReader) :
    (read polls state).1 <+: state.left ∧
      ((read polls state).2 = true → (read polls state).1 = state.left) ∧
      (state.left.length < polls.countP (fun poll => Prompt poll) → (read polls state).2 = true) := by
  induction polls generalizing state with
  | nil => exact ⟨List.nil_prefix, by simp [read], by simp⟩
  | cons poll polls induction =>
      obtain ⟨capacity, turns⟩ := poll
      rw [read, List.countP_cons]
      rcases Nat.eq_zero_or_pos capacity with none | positive
      · subst none
        have idle : ¬Prompt (0, turns) := fun prompt => absurd prompt.1 (lt_irrefl 0)
        rw [pollRead, if_pos rfl]
        simpa [idle] using induction state
      · have step := polled positive turns state
        generalize state.pollRead capacity turns = result at step
        cases step with
        | @waits after late kept =>
            have idle : ¬Prompt (capacity, turns) := fun prompt => late prompt.2
            simpa [idle, kept] using induction after
        | @reads bytes after some bounded moved =>
            obtain ⟨front, whole, enough⟩ := induction after
            have long := List.length_pos_iff.mpr some
            simp only [if_neg (fun both : capacity ≠ 0 ∧ bytes = [] => some both.2)]
            rw [← moved]
            refine ⟨(List.prefix_append_right_inj bytes).mpr front, ?_, ?_⟩
            · intro ended
              rw [whole ended]
            · intro prompt
              apply enough
              rw [List.length_append] at prompt
              split at prompt <;> omega
        | ends empty =>
            have done : capacity ≠ 0 ∧ True := ⟨Nat.ne_of_gt positive, trivial⟩
            rw [empty]
            simp only [if_pos done]
            exact ⟨List.nil_prefix, fun _ => trivial, fun _ => trivial⟩

end SequentialReader

/-- A body delivers these bytes through the reader, with buffers of any size and contents that open
at any time. -/
def Delivers (body : List Bytes) (bytes : Bytes) : Prop :=
  ∀ polls : List (Nat × List Turn),
    let (read, ended) := SequentialReader.read polls (SequentialReader.ofBody body)
    read <+: bytes ∧ (ended = true → read = bytes) ∧
      (bytes.length < polls.countP (fun poll => SequentialReader.Prompt poll) → ended = true)

theorem delivers_flatten (body : List Bytes) : Delivers body body.flatten := by
  intro polls
  have whole : (SequentialReader.ofBody body).left = body.flatten := by
    cases body <;> rfl
  have read := SequentialReader.read_spec polls (SequentialReader.ofBody body)
  rwa [whole] at read

/-- The bytes of a content from the first to the last of a range. -/
def rangeSlice (content : Bytes) (range : Nat × Nat) : Bytes :=
  (content.drop range.1).take (range.2 + 1 - range.1)

theorem length_rangeSlice {content : Bytes} {range : Nat × Nat} (ordered : range.1 ≤ range.2)
    (inside : range.2 < content.length) :
    (rangeSlice content range).length = range.2 - range.1 + 1 := by
  rw [rangeSlice, List.length_take, List.length_drop]
  omega

theorem sliceContent_eq {content : Bytes} {range : Nat × Nat} (ordered : range.1 ≤ range.2)
    (inside : range.2 < content.length) :
    sliceContent content range.1 (range.2 + 1) = .ok (rangeSlice content range) := by
  have fits : range.1 ≤ range.2 + 1 ∧ range.2 + 1 ≤ content.length := ⟨by omega, inside⟩
  rw [sliceContent, Checked.ensure_of fits, rangeSlice, ← List.drop_take]
  rfl

/-- The parts of a multipart body, without the closing boundary. -/
def multipartBody (content : Bytes) (contentType boundary : String) :
    (first : Bool) → List (Nat × Nat) → Bytes
  | _, [] => []
  | first, range :: ranges =>
      partHeader content.length contentType boundary first range ++ rangeSlice content range ++
        multipartBody content contentType boundary false ranges

/-- The body for the ranges of a content: the slice of one range, or several in parts. -/
def exactBody (content : Bytes) (contentType boundary : String) : List (Nat × Nat) → Bytes
  | [range] => rangeSlice content range
  | ranges => multipartBody content contentType boundary true ranges ++ closingBoundary boundary

theorem addLength_eq_ok {left right length : Nat} :
    addLength left right = .ok length ↔ left + right < 2 ^ 64 ∧ left + right = length := by
  rw [addLength, Checked.bind_eq_ok]
  constructor
  · rintro ⟨⟨⟩, fits, sum⟩
    exact ⟨Checked.ensure_eq_ok.mp fits, Checked.pure_eq_ok.mp sum⟩
  · rintro ⟨fits, sum⟩
    exact ⟨(), Checked.ensure_of fits, Checked.pure_eq_ok.mpr sum⟩

theorem multipartParts_eq_ok {content : Bytes} {contentType boundary : String} {first : Bool}
    {before length : Nat} {ranges : List (Nat × Nat)} {parts : List Bytes}
    (bounded : ∀ range ∈ ranges, range.1 ≤ range.2 ∧ range.2 < content.length)
    (small : before < 2 ^ 64) :
    multipartParts content contentType boundary first before ranges = .ok (parts, length) →
      parts.flatten = multipartBody content contentType boundary first ranges ∧
        length = before + parts.flatten.length ∧ length < 2 ^ 64 := by
  intro made
  induction ranges generalizing first before parts with
  | nil =>
      obtain ⟨rfl, rfl⟩ := Prod.mk.inj (Checked.pure_eq_ok.mp made)
      exact ⟨rfl, rfl, small⟩
  | cons range ranges induction =>
      obtain ⟨⟨ordered, inside⟩, behind⟩ := List.forall_mem_cons.mp bounded
      rw [multipartParts, sliceContent_eq ordered inside, Checked.ok_bind] at made
      simp only [Checked.bind_eq_ok] at made
      obtain ⟨first', added, second, addedTwice, ⟨rest, total⟩, more, made⟩ := made
      obtain ⟨rfl, rfl⟩ := Prod.mk.inj (Checked.pure_eq_ok.mp made)
      obtain ⟨fits, rfl⟩ := addLength_eq_ok.mp added
      obtain ⟨fitsTwice, rfl⟩ := addLength_eq_ok.mp addedTwice
      obtain ⟨body, sum, short⟩ := induction behind fitsTwice more
      refine ⟨?_, ?_, short⟩
      · rw [List.flatten_cons, List.flatten_cons, body, multipartBody, List.append_assoc]
      · rw [sum, List.flatten_cons, List.flatten_cons, List.length_append, List.length_append,
          Nat.add_assoc, Nat.add_assoc]

theorem exists_multipartParts {content : Bytes} {contentType boundary : String} {first : Bool}
    {before : Nat} {ranges : List (Nat × Nat)}
    (bounded : ∀ range ∈ ranges, range.1 ≤ range.2 ∧ range.2 < content.length)
    (fits : before + (multipartBody content contentType boundary first ranges).length < 2 ^ 64) :
    ∃ result, multipartParts content contentType boundary first before ranges = .ok result := by
  induction ranges generalizing first before with
  | nil => exact ⟨_, rfl⟩
  | cons range ranges induction =>
      obtain ⟨⟨ordered, inside⟩, behind⟩ := List.forall_mem_cons.mp bounded
      rw [multipartBody, List.length_append, List.length_append] at fits
      obtain ⟨result, made⟩ := @induction false
        (before + (partHeader content.length contentType boundary first range).length +
          (rangeSlice content range).length) behind (by omega)
      rw [multipartParts, sliceContent_eq ordered inside, Checked.ok_bind]
      simp only
      rw [addLength_eq_ok.mpr ⟨by omega, rfl⟩, Checked.ok_bind,
        addLength_eq_ok.mpr ⟨by omega, rfl⟩, Checked.ok_bind, made]
      exact ⟨_, rfl⟩

theorem multipartContent_eq_ok {content : Bytes} {contentType boundary : String}
    {ranges : List (Nat × Nat)} {parts : List Bytes} {length : Nat}
    (bounded : ∀ range ∈ ranges, range.1 ≤ range.2 ∧ range.2 < content.length)
    (made : multipartContent content ranges contentType boundary = .ok (parts, length)) :
    parts.flatten = multipartBody content contentType boundary true ranges ++
        closingBoundary boundary ∧ length = parts.flatten.length := by
  rw [multipartContent] at made
  simp only [Checked.bind_eq_ok] at made
  obtain ⟨⟨⟩, -, ⟨before, sum⟩, slices, total, added, made⟩ := made
  obtain ⟨rfl, rfl⟩ := Prod.mk.inj (Checked.pure_eq_ok.mp made)
  obtain ⟨-, rfl⟩ := addLength_eq_ok.mp added
  obtain ⟨whole, counted, -⟩ := multipartParts_eq_ok bounded (by norm_num) slices
  rw [List.flatten_append, List.flatten_singleton, List.length_append, ← whole, counted,
    Nat.zero_add]
  exact ⟨rfl, rfl⟩

theorem exists_multipartContent {content : Bytes} {contentType boundary : String}
    {ranges : List (Nat × Nat)}
    (bounded : ∀ range ∈ ranges, range.1 ≤ range.2 ∧ range.2 < content.length)
    (valid : isHeaderValue contentType = true)
    (fits : (multipartBody content contentType boundary true ranges ++
      closingBoundary boundary).length < 2 ^ 64) :
    ∃ result, multipartContent content ranges contentType boundary = .ok result := by
  rw [List.length_append] at fits
  obtain ⟨⟨parts, length⟩, made⟩ := @exists_multipartParts content contentType boundary true 0
    ranges bounded (by omega)
  obtain ⟨whole, counted, -⟩ := multipartParts_eq_ok bounded (by norm_num) made
  rw [multipartContent, Checked.ensure_of valid, Checked.ok_bind, made, Checked.ok_bind]
  simp only
  rw [addLength_eq_ok.mpr ⟨by rw [counted, whole]; omega, rfl⟩]
  exact ⟨_, rfl⟩

theorem buildResponse_eq_ok {status : Nat} {headers : List (String × String)} {body : List Bytes}
    {message : String} {response : Response} :
    buildResponse status headers body message = .ok response ↔
      (headers.all fun header => isHeaderValue header.2) = true ∧
        response = ⟨status, headers, body⟩ := by
  rw [buildResponse, Checked.bind_eq_ok]
  constructor
  · rintro ⟨⟨⟩, valid, made⟩
    exact ⟨Checked.ensure_eq_ok.mp valid, (Checked.pure_eq_ok.mp made).symm⟩
  · rintro ⟨valid, rfl⟩
    exact ⟨(), Checked.ensure_of valid, rfl⟩

/-- A response carries these bytes: its body delivers them and its length is theirs. -/
structure Carries (response : Response) (status : Nat) (bytes : Bytes) : Prop where
  status : response.status = status
  delivers : Delivers response.body bytes
  length : response.values "content-length" = [decimalString bytes.length]

theorem Carries.of_flatten {status : Nat} {headers : List (String × String)} {body : List Bytes}
    {bytes : Bytes} (whole : body.flatten = bytes)
    (sized : ((headers.filter fun header => header.1 = "content-length").map Prod.snd) =
      [decimalString bytes.length]) : Carries ⟨status, headers, body⟩ status bytes where
  status := rfl
  delivers := whole ▸ delivers_flatten body
  length := sized

theorem flatten_contentBody (content : Bytes) : (contentBody content).flatten = content := by
  rw [contentBody]
  split
  · next empty => rw [empty, List.flatten_nil]
  · rw [List.flatten_singleton]

/-- The headers before those of the content, with no length among them. -/
def Unsized (headers : List (String × String)) : Prop :=
  ∀ header ∈ headers, header.1 ≠ "content-length"

theorem Unsized.filter {headers : List (String × String)} (unsized : Unsized headers)
    (more : List (String × String)) :
    ((headers ++ more).filter fun header => header.1 = "content-length") =
      more.filter fun header => header.1 = "content-length" := by
  rw [List.filter_append, List.filter_eq_nil_iff.mpr, List.nil_append]
  intro header member
  simpa using unsized header member

theorem Unsized.append {headers more : List (String × String)} (unsized : Unsized headers)
    (others : Unsized more) : Unsized (headers ++ more) := by
  intro header member
  rcases List.mem_append.mp member with front | behind
  · exact unsized header front
  · exact others header behind

theorem unsized_encodingHeaders (verified : VerifiedData) : Unsized (encodingHeaders verified) := by
  intro header member
  rw [encodingHeaders] at member
  split at member
  · obtain rfl := List.mem_singleton.mp member
    simp
  · exact absurd member List.not_mem_nil

theorem unsized_verifiedHeaders (verified : VerifiedData) (resolution : Option Resolution)
    (etag digest contentDigest : String) (ranged : Bool) :
    Unsized (verifiedHeaders verified resolution etag digest contentDigest ranged) := by
  intro header member
  cases resolution <;> cases ranged <;>
    simp only [verifiedHeaders, List.mem_cons, List.not_mem_nil, or_false] at member <;>
    rcases member with rfl | rfl | rfl | rfl | rfl | rfl | rfl | rfl | rfl | rfl | rfl <;>
    simp

/-- The answer for accepted ranges carries exactly the slice of one range, or the multipart body of
several. -/
theorem contentResponse_carries {verified : VerifiedData} {headers : List (String × String)}
    {digest : String} {ranges : List (Nat × Nat)} {response : Response}
    (unsized : Unsized headers) (nonempty : ranges ≠ [])
    (bounded : ∀ range ∈ ranges, range.1 ≤ range.2 ∧ range.2 < verified.bytes.length)
    (made : contentResponse verified headers digest (some ranges) = .ok response) :
    Carries response 206
      (exactBody verified.bytes verified.contentType ("ar-io-" ++ digest) ranges) := by
  have behind := unsized.append (unsized_encodingHeaders verified)
  cases ranges with
  | nil => exact absurd rfl nonempty
  | cons first others =>
      obtain ⟨⟨ordered, inside⟩, -⟩ := List.forall_mem_cons.mp bounded
      cases others with
      | nil =>
          rw [contentResponse, sliceContent_eq ordered inside, Checked.ok_bind,
            buildResponse_eq_ok] at made
          obtain ⟨-, rfl⟩ := made
          refine Carries.of_flatten (flatten_contentBody _) ?_
          rw [behind.filter, exactBody, length_rangeSlice ordered inside]
          rfl
      | cons second others =>
          rw [contentResponse] at made
          simp only [Checked.bind_eq_ok, buildResponse_eq_ok] at made
          obtain ⟨⟨parts, length⟩, multipart, -, rfl⟩ := made
          obtain ⟨whole, sum⟩ := multipartContent_eq_ok bounded multipart
          refine Carries.of_flatten whole ?_
          rw [behind.filter, sum, whole]
          rfl

theorem isHeaderValue_append (left right : String) :
    isHeaderValue (left ++ right) = (isHeaderValue left && isHeaderValue right) := by
  rw [isHeaderValue, utf8_append, List.all_append]
  rfl

theorem isHeaderValue_decimalString (value : Nat) : isHeaderValue (decimalString value) = true := by
  rw [isHeaderValue, utf8_decimalString, List.all_eq_true]
  intro digit member
  have range := isAsciiDigit_of_mem_decimal member
  simp only [isAsciiDigit, decide_eq_true_eq] at range
  rw [decide_eq_true_eq]
  refine .inl ⟨by omega, ?_⟩
  rintro rfl
  exact absurd range.2 (by decide)

theorem isHeaderValue_servedAs {body magic : Bytes} {coding served : String}
    (valid : isHeaderValue coding = true) (found : servedAs body coding magic = some served) :
    isHeaderValue served = true := by
  rw [servedAs, Option.ite_none_right_eq_some] at found
  rw [← Option.some.inj found.2]
  exact valid

theorem isHeaderValue_servedContentEncoding {tagged coding : String} {body : Bytes}
    (served : servedContentEncoding tagged body = some coding) : isHeaderValue coding = true := by
  rw [servedContentEncoding] at served
  generalize String.ofList ((trim tagged.toList).map Char.toLower) = name at served
  by_cases gzip : name = "gzip"
  · rw [if_pos gzip] at served
    exact isHeaderValue_servedAs (by decide) served
  rw [if_neg gzip] at served
  by_cases zstd : name = "zstd"
  · rw [if_pos zstd] at served
    exact isHeaderValue_servedAs (by decide) served
  rw [if_neg zstd] at served
  by_cases br : name = "br"
  · rw [if_pos br] at served
    exact isHeaderValue_servedAs (by decide) served
  rw [if_neg br] at served
  by_cases deflate : name = "deflate"
  · rw [if_pos deflate] at served
    exact isHeaderValue_servedAs (by decide) served
  · rw [if_neg deflate] at served
    contradiction

theorem valid_encodingHeaders {verified : VerifiedData} :
    ∀ header ∈ encodingHeaders verified, isHeaderValue header.2 = true := by
  intro header member
  rw [encodingHeaders] at member
  cases tagged : verified.contentEncoding with
  | none =>
      rw [tagged] at member
      exact absurd member List.not_mem_nil
  | some encoding =>
      rw [tagged, Option.bind_some] at member
      cases served : servedContentEncoding encoding verified.bytes with
      | none =>
          rw [served] at member
          exact absurd member List.not_mem_nil
      | some coding =>
          rw [served] at member
          obtain rfl := List.mem_singleton.mp member
          exact isHeaderValue_servedContentEncoding served

theorem isHeaderValue_responseContentType {contentType : String}
    (valid : isHeaderValue contentType = true) :
    isHeaderValue (responseContentType contentType) = true := by
  rw [responseContentType]
  split
  · rw [isHeaderValue_append, valid]
    decide
  · exact valid

/-- The answer for accepted ranges is made when the texts of its headers are values and the length
of its body can be counted. -/
theorem exists_contentResponse {verified : VerifiedData} {headers : List (String × String)}
    {digest : String} {ranges : List (Nat × Nat)} (nonempty : ranges ≠ [])
    (bounded : ∀ range ∈ ranges, range.1 ≤ range.2 ∧ range.2 < verified.bytes.length)
    (valid : ∀ header ∈ headers, isHeaderValue header.2 = true)
    (validType : isHeaderValue verified.contentType = true)
    (validDigest : isHeaderValue digest = true)
    (fits : (exactBody verified.bytes verified.contentType ("ar-io-" ++ digest) ranges).length <
      2 ^ 64) :
    ∃ response, contentResponse verified headers digest (some ranges) = .ok response := by
  have validBoundary : isHeaderValue ("ar-io-" ++ digest) = true := by
    rw [isHeaderValue_append, validDigest]
    decide
  have validFront : ∀ header ∈ headers ++ encodingHeaders verified,
      isHeaderValue header.2 = true := by
    intro header member
    rcases List.mem_append.mp member with front | behind
    · exact valid header front
    · exact valid_encodingHeaders header behind
  cases ranges with
  | nil => exact absurd rfl nonempty
  | cons first others =>
      obtain ⟨⟨ordered, inside⟩, -⟩ := List.forall_mem_cons.mp bounded
      cases others with
      | nil =>
          rw [contentResponse, sliceContent_eq ordered inside, Checked.ok_bind]
          refine ⟨_, buildResponse_eq_ok.mpr ⟨?_, rfl⟩⟩
          rw [List.all_append, List.all_eq_true.mpr validFront]
          simp only [List.all_cons, List.all_nil, isHeaderValue_append, isHeaderValue_decimalString,
            isHeaderValue_responseContentType validType]
          decide
      | cons second others =>
          obtain ⟨⟨parts, length⟩, multipart⟩ :=
            exists_multipartContent bounded validType fits
          rw [contentResponse, multipart, Checked.ok_bind]
          · refine ⟨_, buildResponse_eq_ok.mpr ⟨?_, rfl⟩⟩
            rw [List.all_append, List.all_eq_true.mpr validFront]
            simp only [List.all_cons, List.all_nil, isHeaderValue_append,
              isHeaderValue_decimalString, validDigest]
            decide

/-- Merged ranges cover the bytes of the ranges, stay apart and are proper. -/
theorem mergeRanges_spec {ranges : List (Nat × Nat)} {total : Nat}
    (bounded : ∀ range ∈ ranges, range.1 ≤ range.2 ∧ range.2 < total) :
    (∀ byte, (∃ range ∈ mergeRanges ranges, range.1 ≤ byte ∧ byte ≤ range.2) ↔
      ∃ range ∈ ranges, range.1 ≤ byte ∧ byte ≤ range.2) ∧
      (∀ range ∈ mergeRanges ranges, range.1 ≤ range.2 ∧ range.2 < total) ∧
      (mergeRanges ranges).Pairwise fun earlier later => earlier.2 + 1 < later.1 := by
  obtain ⟨covers, proper, apart⟩ :=
    Intervals.merge_spec fun range member => (bounded range member).1
  refine ⟨covers, fun range member => ⟨proper range member, ?_⟩, apart⟩
  obtain ⟨other, found, -, high⟩ :=
    (covers range.2).mp ⟨range, member, proper range member, le_rfl⟩
  exact lt_of_le_of_lt high (bounded other found).2

/-- A published file is answered with one range of it, or whole, and not at all without a permit. -/
theorem publishedFileResponse_carries {entry : PublishedFile} {file : Bytes}
    {headers : List (String × String)} {cacheControl : String} {range : Option (Nat × Nat)}
    (unsized : Unsized headers) (same : file.length = entry.size) (positive : 0 < entry.size)
    (bounded : ∀ single ∈ range, single.1 ≤ single.2 ∧ single.2 < file.length) :
    Carries (publishedFileResponse entry file headers cacheControl false true range)
        (if range.isSome then 206 else 200) ((range.map (rangeSlice file)).getD file) ∧
      publishedFileResponse entry file headers cacheControl false false range =
        errorResponse 503 "Service Unavailable" := by
  have granted : ¬(true = false) := Bool.noConfusion
  cases range with
  | none =>
      have whole : rangeSlice file (0, entry.size - 1) = file := by
        rw [rangeSlice, List.drop_zero]
        exact List.take_of_length_le (by omega)
      have long : ¬(false = true ∨ entry.size - 1 - 0 + 1 = 0) := by simp
      have slice := @sliceContent_eq file (0, entry.size - 1) (Nat.zero_le _) (by simp; omega)
      rw [publishedFileResponse, publishedFileResponse]
      simp only [Option.getD_none, if_neg (Nat.ne_of_gt positive), if_neg long, if_neg granted,
        slice, whole]
      refine ⟨Carries.of_flatten (flatten_contentBody _) ?_, rfl⟩
      rw [List.append_assoc, unsized.filter]
      have length : entry.size - 1 - 0 + 1 = file.length := by omega
      rw [length]
      rfl
  | some single =>
      obtain ⟨ordered, inside⟩ := bounded single rfl
      have long : ¬(false = true ∨ single.2 - single.1 + 1 = 0) := by simp
      rw [publishedFileResponse, publishedFileResponse]
      simp only [Option.getD_some, if_neg (Nat.ne_of_gt positive), if_neg long, if_neg granted,
        sliceContent_eq ordered inside]
      refine ⟨Carries.of_flatten (flatten_contentBody _) ?_, rfl⟩
      rw [List.append_assoc, unsized.filter, Option.map_some, Option.getD_some,
        length_rangeSlice ordered inside]
      rfl

/-- A published file is answered with the one merged range of a request, or whole, and not at all
without a permit. -/
theorem serveIndexFile_carries {entry : PublishedFile} {file : Bytes} {cacheControl : String}
    {request : RequestHeaders} {header : Bytes} {ranges : List (Nat × Nat)}
    (asked : request.range = some header) (inBytes : usesByteRange request.range = true)
    (stale : request.ifNoneMatch.bind headerToStr ≠
      some ("\"" ++ entry.sha256 ++ "\"").toList)
    (nonempty : ranges ≠ [])
    (bounded : ∀ range ∈ ranges, range.1 ≤ range.2 ∧ range.2 < file.length)
    (accepted : requestedRanges header file.length = .ok ranges) (same : file.length = entry.size) :
    Carries (serveIndexFile entry (some (file, entry.modifiedNs)) cacheControl false true request)
        (if (singleRange ranges).isSome then 206 else 200)
        (((singleRange ranges).map (rangeSlice file)).getD file) ∧
      serveIndexFile entry (some (file, entry.modifiedNs)) cacheControl false false request =
        errorResponse 503 "Service Unavailable" := by
  have positive : 0 < entry.size := by
    obtain ⟨range, member⟩ := List.exists_mem_of_ne_nil ranges nonempty
    have inside := (bounded range member).2
    omega
  have read : parseByteRanges ((request.range.bind headerToStr).getD []) entry.size =
      .ok ranges := by
    rw [requestedRanges] at accepted
    rw [asked, Option.bind_some, ← same]
    cases text : headerToStr header with
    | none =>
        rw [text] at accepted
        contradiction
    | some text' =>
        rw [text] at accepted
        exact accepted
  have kept : (some (file, entry.modifiedNs)).filter (fun file =>
      decide (file.1.length = entry.size ∧ file.2 = entry.modifiedNs)) =
      some (file, entry.modifiedNs) := by
    simp [Option.filter, same]
  obtain ⟨-, inside, -⟩ := mergeRanges_spec bounded
  rw [serveIndexFile, serveIndexFile, kept]
  simp only [if_neg stale, if_pos (And.intro inBytes positive), read]
  refine publishedFileResponse_carries ?_ same positive ?_
  · intro header member
    simp only [List.mem_cons, List.not_mem_nil, or_false] at member
    rcases member with rfl | rfl | rfl | rfl <;> simp
  · intro single found
    rw [singleRange] at found
    cases merged : mergeRanges ranges with
    | nil =>
        rw [merged] at found
        contradiction
    | cons range others =>
        rw [merged] at found inside
        cases others with
        | nil =>
            obtain rfl := Option.some.inj found
            exact inside range List.mem_cons_self
        | cons second others => contradiction

theorem requestedRanges_eq_ok {header : Bytes} {total : Nat} {ranges : List (Nat × Nat)} :
    requestedRanges header total = .ok ranges ↔
      ∃ text, headerToStr header = some text ∧ parseByteRanges text total = .ok ranges := by
  rw [requestedRanges]
  cases headerToStr header <;> simp

/-- What a verified content answers to an accepted range header. -/
theorem verifiedResponse_of_accepted {verified : VerifiedData} {resolution : Option Resolution}
    {request : RequestHeaders} {digest : String} {bytes header : Bytes}
    {ranges : List (Nat × Nat)} (sized : verified.bytes.length = verified.contentLength)
    (tagged : unquoted verified.etag = some digest)
    (decoded : base64Decode (utf8 digest) = some bytes) (wide : bytes.length = 32)
    (asked : rangeHeader request (responseEtag verified resolution digest) = some header)
    (accepted : requestedRanges header verified.contentLength = .ok ranges)
    (stale : request.ifNoneMatch ≠ some (utf8 (responseEtag verified resolution digest))) :
    verifiedResponse verified resolution request =
      contentResponse verified (verifiedHeaders verified resolution
        (responseEtag verified resolution digest) digest
        ("sha-256=:" ++ standardBase64 bytes ++ ":") true) digest (some ranges) := by
  rw [verifiedResponse, Checked.ensure_of sized, tagged, Checked.context, Checked.ok_bind,
    Checked.ok_bind, decoded, Checked.context, Checked.ok_bind, Checked.ensure_of wide,
    Checked.ok_bind]
  simp only [asked, Option.map_some, accepted, if_neg stale, Option.isSome_some]

/-- An accepted range header of a content of length `total` gives the nonempty intersections of the
requested parts with the content, in order.  A verified content of this length is answered with
exactly these ranges, whatever the buffers and however late its slices open, and with the length of
its body.  The merged ranges of a published file of this length cover what is requested, and it is
answered with the one merged range or whole, or refused while no request may start. -/
theorem range_responses_exact {header : Bytes} {total : Nat} {ranges : List (Nat × Nat)}
    (accepted : requestedRanges header total = .ok ranges) :
    (∃ text requests, headerToStr header = some text ∧ AsksFor text requests ∧
      Intersections total requests ranges) ∧
    (∀ range ∈ ranges, range.1 ≤ range.2 ∧ range.2 < total) ∧
    (∀ (verified : VerifiedData) (resolution : Option Resolution) (request : RequestHeaders)
        (digest : String) (bytes : Bytes),
      verified.bytes.length = total → verified.contentLength = total →
      unquoted verified.etag = some digest → base64Decode (utf8 digest) = some bytes →
      bytes.length = 32 →
      rangeHeader request (responseEtag verified resolution digest) = some header →
      request.ifNoneMatch ≠ some (utf8 (responseEtag verified resolution digest)) →
      let body := exactBody verified.bytes verified.contentType ("ar-io-" ++ digest) ranges
      (∀ response, verifiedResponse verified resolution request = .ok response →
        Carries response 206 body) ∧
      (body.length < 2 ^ 64 → isHeaderValue verified.contentType = true →
        (∀ header ∈ verifiedHeaders verified resolution (responseEtag verified resolution digest)
          digest ("sha-256=:" ++ standardBase64 bytes ++ ":") true,
          isHeaderValue header.2 = true) →
        ∃ response, verifiedResponse verified resolution request = .ok response)) ∧
    (∀ byte, (∃ range ∈ mergeRanges ranges, range.1 ≤ byte ∧ byte ≤ range.2) ↔
      ∃ range ∈ ranges, range.1 ≤ byte ∧ byte ≤ range.2) ∧
    ((mergeRanges ranges).Pairwise fun earlier later => earlier.2 + 1 < later.1) ∧
    (∀ (entry : PublishedFile) (file : Bytes) (cacheControl : String) (request : RequestHeaders),
      file.length = total → entry.size = total → request.range = some header →
      usesByteRange request.range = true →
      request.ifNoneMatch.bind headerToStr ≠ some ("\"" ++ entry.sha256 ++ "\"").toList →
      Carries (serveIndexFile entry (some (file, entry.modifiedNs)) cacheControl false true request)
          (if (singleRange ranges).isSome then 206 else 200)
          (((singleRange ranges).map (rangeSlice file)).getD file) ∧
        serveIndexFile entry (some (file, entry.modifiedNs)) cacheControl false false request =
          errorResponse 503 "Service Unavailable") := by
  obtain ⟨text, read, parsed⟩ := requestedRanges_eq_ok.mp accepted
  obtain ⟨nonempty, requests, asks, intersections⟩ := parseByteRanges_eq_ok.mp parsed
  have bounded := intersections.bounded
  obtain ⟨covers, -, apart⟩ := mergeRanges_spec bounded
  refine ⟨⟨text, requests, read, asks, intersections⟩, bounded, ?_, covers, apart, ?_⟩
  · intro verified resolution request digest bytes long sized tagged decoded wide asked stale
    have inside : ∀ range ∈ ranges, range.1 ≤ range.2 ∧ range.2 < verified.bytes.length := by
      rwa [long]
    have answered := verifiedResponse_of_accepted (long.trans sized.symm) tagged decoded wide asked
      (sized ▸ accepted) stale
    rw [answered]
    constructor
    · intro response made
      exact contentResponse_carries (unsized_verifiedHeaders _ _ _ _ _ _) nonempty inside made
    · intro fits validType valid
      have validDigest : isHeaderValue digest = true :=
        valid ("x-ar-io-digest", digest) (by simp [verifiedHeaders])
      exact exists_contentResponse nonempty inside valid validType validDigest fits
  · intro entry file cacheControl request long sized asked inBytes stale
    exact serveIndexFile_carries asked inBytes stale nonempty (long ▸ bounded)
      (long ▸ accepted) (long.trans sized.symm)

/-- A content of twelve bytes whose hash is zero. -/
def sampleVerified : VerifiedData where
  id := "id"
  contentType := "text/plain"
  contentEncoding := none
  contentLength := 12
  etag := "\"AAAAAAAAAAAAAAAAAAAAAAAAAAAAAAAAAAAAAAAAAAA\""
  stableAnchor := true
  cacheHit := false
  bytes := utf8 "hello world!"

/-- The two bytes at each end of a content are answered in two parts. -/
theorem range_responses_exact_sample :
    ∃ response, verifiedResponse sampleVerified none ⟨some (utf8 "bytes=0-1, -2"), none, none⟩ =
        .ok response ∧
      Carries response 206 (exactBody (utf8 "hello world!") "text/plain"
        ("ar-io-" ++ "AAAAAAAAAAAAAAAAAAAAAAAAAAAAAAAAAAAAAAAAAAA") [(0, 1), (10, 11)]) := by
  have accepted : requestedRanges (utf8 "bytes=0-1, -2") 12 = .ok [(0, 1), (10, 11)] := by
    decide
  obtain ⟨carries, made⟩ := (range_responses_exact accepted).2.2.1 sampleVerified none
    ⟨some (utf8 "bytes=0-1, -2"), none, none⟩ "AAAAAAAAAAAAAAAAAAAAAAAAAAAAAAAAAAAAAAAAAAA"
    (List.replicate 32 0) (by decide) rfl (by decide) (by decide) (by decide) (by decide)
    (by decide)
  obtain ⟨response, answered⟩ := made (by decide +kernel) (by decide) (by decide)
  exact ⟨response, answered, carries response answered⟩

end ArIoGateway
