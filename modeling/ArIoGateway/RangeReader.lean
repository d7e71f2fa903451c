import ArIoGateway.Bundles
import ArIoGateway.ByteRanges
import ArIoGateway.Foundation.RangeReads
import ArIoGateway.ResponseBudget

/-!
# Reading ranges from upstreams

The inspection of a bundle asks upstreams for ranges of it.  An answer counts only when it is exactly
the range that was asked for; otherwise the next upstream is asked, and an upstream that failed is
not asked again.
-/

namespace ArIoGateway

open Octets

/-- A response to a range request; `complete` tells whether the body ends without an error. -/
structure RangeAnswer where
  status : Nat
  contentEncoding : Option Bytes
  /-- The header, when it is there and consists of visible ASCII characters. -/
  contentRange : Option String
  contentLength : Option Nat
  chunks : List Bytes
  complete : Bool

/-- What an upstream returns when it is asked for the bytes from a first to a last position, after a
number of requests that were sent before; the transport may fail. -/
abbrev Upstream := Nat → Nat → Nat → Option RangeAnswer

/-- The text behind a mark, `strip_prefix`. -/
def stripMark (mark text : List Char) : Option (List Char) :=
  if text.take mark.length = mark then some (text.drop mark.length) else none

/-- The text `{offset}-{end}` of the bounds of a range. -/
def boundsText (offset last : Nat) : List Char :=
  (decimalString offset).toList ++ '-' :: (decimalString last).toList

/-- The bounds and the size in a `Content-Range` header. -/
def parseContentRange (text : String) : Checked (List Char × Nat) := do
  let range ← Checked.context (stripMark "bytes ".toList text.toList) "Invalid Content-Range"
  let (bounds, size) ← Checked.context (splitOnce '/' range) "Invalid Content-Range"
  let size ← (parseU128 (String.ofList size) "range content size").mapError fun _ =>
    "Invalid range content size"
  pure (bounds, size)

/-- The checks of the head of a response, which give the size of the content. -/
def acceptHead (offset last : Nat) (total : Option Nat) (answer : RangeAnswer) : Checked Nat := do
  Checked.ensure (answer.status = 206)
    (s!"Upstream returned HTTP {answer.status} for bytes={offset}-{last}, expected 206. " ++
      "Full downloads are disabled.")
  Checked.ensure (∀ encoding ∈ answer.contentEncoding, encoding = utf8 "identity")
    "Encoded range responses are unsupported"
  let range ← Checked.context answer.contentRange "Missing Content-Range"
  let (bounds, size) ← parseContentRange range
  Checked.ensure (bounds = boundsText offset last ∧ last < size ∧ ∀ known ∈ total, known = size)
    "Upstream returned inconsistent byte ranges"
  pure size

/-- Receive the chunks of a body until one of them is refused. -/
def receiveChunks (reader : BodyReader) (remaining : Nat) : List Bytes → BodyReader × Nat
  | [] => (reader, remaining)
  | chunk :: chunks =>
      let next := reader.receive remaining chunk
      let left := saturatingSub remaining chunk.length
      if next.status = .failed then (next, left) else receiveChunks next left chunks

/-- `read_response_body_with_limit` with a counter that no one else uses. -/
def readResponseBody (answer : RangeAnswer) (limit remaining : Nat) : Checked Bytes × Nat :=
  if ∀ length ∈ answer.contentLength, length ≤ min limit remaining then
    let (reader, left) := receiveChunks ⟨limit, [], .reading⟩ remaining answer.chunks
    if reader.status = .failed then (.error "HTTP response exceeds size limit", left)
    else if answer.complete then (.ok reader.body, left)
    else (.error "failed to read HTTP body", left)
  else (.error "HTTP response exceeds size limit", remaining)

/-- The upstream that is in use, the number of bytes that may still be read, and the offsets and
lengths of the requests that were sent. -/
structure RangeReader where
  selected : Nat
  remaining : Nat
  sent : List (Nat × Nat)

namespace RangeReader

/-- The checks before a request is sent, which give the last position. -/
def lastPosition (offset length : Nat) (total : Option Nat) : Checked Nat := do
  Checked.ensure (0 < length) "Empty range"
  Checked.ensure (offset + (length - 1) < 2 ^ 128) "Range overflow"
  Checked.ensure (∀ known ∈ total, offset + (length - 1) < known) "Header exceeds item bounds"
  pure (offset + (length - 1))

/-- `read_from`. -/
def readFrom (url : Upstream) (offset length : Nat) (total : Option Nat) (reader : RangeReader) :
    Checked (Bytes × Nat) × RangeReader :=
  match lastPosition offset length total with
  | .error message => (.error message, reader)
  | .ok last =>
      let sent := { reader with sent := reader.sent ++ [(offset, length)] }
      match url reader.sent.length offset last with
      | none => (.error "Upstream range request failed", sent)
      | some answer =>
          match acceptHead offset last total answer with
          | .error message => (.error message, sent)
          | .ok size =>
              let (body, remaining) := readResponseBody answer length reader.remaining
              let result := do
                let body ← body.mapError fun _ => "Invalid range response body"
                Checked.ensure (body.length = length) "Truncated range response"
                pure (body, size)
              (result, { sent with remaining })

/-- Ask upstreams in turn; the number is the place of the first one. -/
def tryFrom (offset length : Nat) (total : Option Nat) :
    List Upstream → Nat → String → RangeReader → Checked (Bytes × Nat) × RangeReader
  | [], _, lastError, reader => (.error lastError, reader)
  | url :: urls, index, _, reader =>
      match readFrom url offset length total { reader with selected := index } with
      | (.ok range, reader) => (.ok range, reader)
      | (.error message, reader) => tryFrom offset length total urls (index + 1) message reader

/-- `RangeReader::read`. -/
def read (urls : List Upstream) (offset length : Nat) (total : Option Nat) (reader : RangeReader) :
    Checked (Bytes × Nat) × RangeReader :=
  tryFrom offset length total (urls.drop reader.selected) reader.selected
    "No configured range gateway" reader

end RangeReader

/-- The full answer of a content to a request for the bytes from a first to a last position. -/
structure RangeAnswer.Full (content : Bytes) (offset last : Nat) (answer : RangeAnswer) : Prop where
  status : answer.status = 206
  plain : ∀ encoding ∈ answer.contentEncoding, encoding = utf8 "identity"
  range : answer.contentRange = some (String.ofList ("bytes ".toList ++ boundsText offset last ++
    '/' :: (decimalString content.length).toList))
  announced : ∀ length ∈ answer.contentLength, length = last + 1 - offset
  complete : answer.complete = true
  body : answer.chunks.flatten = Reads.slice content offset (last + 1 - offset)

/-- An upstream that answers every request for bytes of a content with these bytes, and that states
no other size of the content. -/
structure Upstream.Faithful (content : Bytes) (url : Upstream) : Prop where
  serves : ∀ {before offset last}, offset ≤ last → last < content.length →
    ∃ answer, url before offset last = some answer ∧ answer.Full content offset last
  states : ∀ {before offset last answer range bounds size},
    url before offset last = some answer → answer.status = 206 →
    answer.contentRange = some range → parseContentRange range = .ok (bounds, size) →
    size = content.length

theorem parseU128_decimalString {value : Nat} (small : value < 2 ^ 128) (label : String) :
    parseU128 (decimalString value) label = .ok value := by
  have digits : (decimal value).all isAsciiDigit = true :=
    List.all_eq_true.mpr fun _ member => isAsciiDigit_of_mem_decimal member
  have sign : ∀ rest, decimal value ≠ 43 :: rest := by
    intro rest same
    have digit := @isAsciiDigit_of_mem_decimal value 43 (by simp [same])
    exact absurd digit (by decide)
  simp only [parseU128, utf8_decimalString]
  rw [ofDecimal_decimal, Checked.ensure_of ⟨decimal_ne_nil value, digits, small⟩]
  rfl

theorem slash_not_mem_boundsText (offset last : Nat) : '/' ∉ boundsText offset last := by
  have free : ∀ value, '/' ∉ (decimalString value).toList := by
    intro value member
    rw [decimalString, String.toList_ofList] at member
    obtain ⟨digit, there, same⟩ := List.mem_map.mp member
    have range := isAsciiDigit_of_mem_decimal there
    simp only [isAsciiDigit, decide_eq_true_eq] at range
    have code := congrArg Char.toNat same
    have small : digit.toNat.isValidChar := Or.inl (by omega)
    rw [Char.ofNat, dif_pos small] at code
    have value : digit.toNat = 47 := code
    omega
  simp [boundsText, free]

theorem parseContentRange_full {size : Nat} (offset last : Nat) (small : size < 2 ^ 128) :
    parseContentRange (String.ofList ("bytes ".toList ++ boundsText offset last ++
      '/' :: (decimalString size).toList)) = .ok (boundsText offset last, size) := by
  have mark : stripMark "bytes ".toList ("bytes ".toList ++ (boundsText offset last ++
      '/' :: (decimalString size).toList)) =
      some (boundsText offset last ++ '/' :: (decimalString size).toList) := by
    rw [stripMark, List.take_left, if_pos rfl, List.drop_left]
  have halves := splitOnce_eq_some.mpr ⟨slash_not_mem_boundsText offset last,
    (rfl : boundsText offset last ++ '/' :: (decimalString size).toList = _)⟩
  rw [parseContentRange]
  simp only [String.toList_ofList, List.append_assoc]
  rw [mark]
  simp only [Checked.context, Checked.ok_bind, halves, String.ofList_toList]
  rw [parseU128_decimalString small]
  rfl

theorem acceptHead_full {content : Bytes} {offset last : Nat} {total : Option Nat}
    {answer : RangeAnswer} (full : answer.Full content offset last)
    (small : content.length < 2 ^ 128) (inside : last < content.length)
    (known : ∀ size ∈ total, size = content.length) :
    acceptHead offset last total answer = .ok content.length := by
  rw [acceptHead, Checked.ensure_of full.status, Checked.ok_bind, Checked.ensure_of full.plain,
    Checked.ok_bind, full.range, Checked.context, Checked.ok_bind, parseContentRange_full _ _ small,
    Checked.ok_bind]
  dsimp only
  rw [Checked.ensure_of ⟨rfl, inside, known⟩]
  rfl

/-- Chunks that fit the limit and the counter are all accepted. -/
theorem receiveChunks_fit {reader : BodyReader} {remaining : Nat} {chunks : List Bytes}
    (reading : reader.status = .reading) (word : reader.limit < wordBound)
    (limit : reader.body.length + chunks.flatten.length ≤ reader.limit)
    (budget : chunks.flatten.length ≤ remaining) :
    receiveChunks reader remaining chunks =
      ({ reader with body := reader.body ++ chunks.flatten },
        remaining - chunks.flatten.length) := by
  induction chunks generalizing reader remaining with
  | nil => simp [receiveChunks]
  | cons chunk chunks induction =>
      rw [List.flatten_cons, List.length_append] at limit budget
      have fits : chunk.length ≤ remaining ∧
          saturatingLength reader.body.length chunk.length ≤ reader.limit := by
        rw [saturatingLength]
        omega
      have next : reader.receive remaining chunk = { reader with body := reader.body ++ chunk } :=
        if_pos fits
      have left : saturatingSub remaining chunk.length = remaining - chunk.length := if_pos fits.1
      have length : (reader.body ++ chunk).length = reader.body.length + chunk.length :=
        List.length_append
      rw [receiveChunks, next, left]
      dsimp only
      have rest := @induction { reader with body := reader.body ++ chunk }
        (remaining - chunk.length) reading word (by simp only [length]; omega) (by omega)
      rw [if_neg (by simp [reading]), rest]
      simp only [List.flatten_cons, List.length_append, List.append_assoc, Nat.sub_sub]

/-- A full answer gives its range, which is taken from the counter. -/
theorem readResponseBody_full {content : Bytes} {offset length remaining : Nat}
    {answer : RangeAnswer} (full : answer.Full content offset (offset + (length - 1)))
    (positive : 0 < length) (fits : offset + length ≤ content.length) (word : length < wordBound)
    (budget : length ≤ remaining) :
    readResponseBody answer length remaining =
      (.ok (Reads.slice content offset length), remaining - length) := by
  have span : offset + (length - 1) + 1 - offset = length := by omega
  have body := full.body
  rw [span] at body
  have size : answer.chunks.flatten.length = length := by
    rw [body, Reads.slice, List.length_take, List.length_drop]
    omega
  have announced : ∀ size ∈ answer.contentLength, size ≤ min length remaining := by
    intro size member
    have same := full.announced size member
    omega
  have received := @receiveChunks_fit ⟨length, [], .reading⟩ remaining answer.chunks rfl word
    (by simp [size]) (by omega)
  rw [readResponseBody, if_pos announced, received, size, body]
  simp [full.complete]

namespace RangeReader

theorem lastPosition_eq_ok {offset length last : Nat} {total : Option Nat} :
    lastPosition offset length total = .ok last ↔
      0 < length ∧ last = offset + (length - 1) ∧ last < 2 ^ 128 ∧ ∀ known ∈ total, last < known := by
  simp only [lastPosition, Checked.bind_eq_ok, Checked.ensure_eq_ok, Checked.pure_eq_ok,
    exists_and_left, exists_const]
  constructor
  · rintro ⟨positive, small, before, rfl⟩
    exact ⟨positive, rfl, small, before⟩
  · rintro ⟨positive, rfl, small, before⟩
    exact ⟨positive, small, before, rfl⟩

variable {content : Bytes} {url : Upstream} {offset length : Nat} {total : Option Nat}
  {reader : RangeReader}

/-- A faithful upstream answers a request for bytes that are there. -/
theorem readFrom_inside (faithful : url.Faithful content) (addressable : content.length < wordBound)
    (inside : Reads.Inside content offset length total) (budget : length ≤ reader.remaining) :
    readFrom url offset length total reader =
      (.ok (Reads.slice content offset length, content.length),
        { reader with
          remaining := reader.remaining - length
          sent := reader.sent ++ [(offset, length)] }) := by
  obtain ⟨positive, fits, known⟩ := inside
  have word : wordBound ≤ 2 ^ 128 := by decide
  have last : lastPosition offset length total = .ok (offset + (length - 1)) := by
    apply lastPosition_eq_ok.mpr
    refine ⟨positive, rfl, by omega, fun size member => ?_⟩
    have same := known size member
    omega
  obtain ⟨answer, answered, full⟩ :=
    @faithful.serves reader.sent.length offset (offset + (length - 1)) (by omega) (by omega)
  have head := acceptHead_full full (by omega) (by omega) known
  have body := readResponseBody_full full positive fits (by omega) budget
  have width : (Reads.slice content offset length).length = length := by
    rw [Reads.slice, List.length_take, List.length_drop]
    omega
  simp only [readFrom, last, answered, head, body]
  rw [Except.mapError, Checked.ok_bind, Checked.ensure_of width]
  rfl

/-- No faithful upstream answers another request. -/
theorem readFrom_outside (faithful : url.Faithful content)
    (outside : ¬Reads.Inside content offset length total) :
    ∃ message after, readFrom url offset length total reader = (.error message, after) ∧
      ∀ request ∈ after.sent, request ∈ reader.sent ∨ request = (offset, length) := by
  have logged : ∀ request ∈ reader.sent ++ [(offset, length)],
      request ∈ reader.sent ∨ request = (offset, length) := fun request member => by
    rcases List.mem_append.mp member with old | new
    · exact .inl old
    · exact .inr (List.mem_singleton.mp new)
  unfold readFrom
  cases position : lastPosition offset length total with
  | error message => exact ⟨message, reader, rfl, fun _ member => .inl member⟩
  | ok last =>
      obtain ⟨positive, rfl, _, before⟩ := lastPosition_eq_ok.mp position
      cases answered : url reader.sent.length offset (offset + (length - 1)) with
      | none =>
          exact ⟨"Upstream range request failed", { reader with sent := reader.sent ++ [_] },
            by simp only [answered], logged⟩
      | some answer =>
          cases head : acceptHead offset (offset + (length - 1)) total answer with
          | error message =>
              exact ⟨message, { reader with sent := reader.sent ++ [_] },
                by simp only [answered, head], logged⟩
          | ok size =>
              exfalso
              simp only [acceptHead, Checked.bind_eq_ok, Checked.ensure_eq_ok,
                Checked.context_eq_ok, Checked.pure_eq_ok] at head
              obtain ⟨_, status, _, _, range, header, ⟨bounds, _⟩, parsed, _, ⟨_, fits, known⟩,
                rfl⟩ := head
              have whole := faithful.states answered status header parsed
              dsimp only at fits known
              apply outside
              exact ⟨positive, by omega, fun size member => by rw [known size member, whole]⟩

theorem tryFrom_outside {urls : List Upstream} (faithful : ∀ url ∈ urls, url.Faithful content)
    (outside : ¬Reads.Inside content offset length total) (index : Nat) (lastError : String) :
    ∃ message after, tryFrom offset length total urls index lastError reader =
        (.error message, after) ∧
      ∀ request ∈ after.sent, request ∈ reader.sent ∨ request = (offset, length) := by
  induction urls generalizing index lastError reader with
  | nil => exact ⟨lastError, reader, rfl, fun _ member => .inl member⟩
  | cons url urls induction =>
      obtain ⟨first, others⟩ := List.forall_mem_cons.mp faithful
      obtain ⟨message, failed, refused, logged⟩ :=
        readFrom_outside first outside
      obtain ⟨lastMessage, after, ended, later⟩ :=
        @induction failed others (index + 1) message
      refine ⟨lastMessage, after, by rw [tryFrom, refused]; exact ended, fun request member => ?_⟩
      rcases later request member with early | rfl
      · exact logged request early
      · exact .inr rfl

/-- A reader of faithful upstreams serves their content while it has bytes left. -/
theorem serves {urls : List Upstream} (faithful : ∀ url ∈ urls, url.Faithful content)
    (addressable : content.length < wordBound) :
    Reads.Serves content (read urls)
      (fun budget reader => reader.selected < urls.length ∧ budget ≤ reader.remaining) sent := by
  constructor
  · rintro offset length total budget reader ⟨selected, enough⟩ inside
    have first : urls.drop reader.selected =
        urls[reader.selected] :: urls.drop (reader.selected + 1) := List.drop_eq_getElem_cons selected
    have answered := readFrom_inside
      (faithful _ (List.getElem_mem selected)) addressable inside
      (Nat.le_of_add_right_le enough)
    refine ⟨{ reader with
        remaining := reader.remaining - length
        sent := reader.sent ++ [(offset, length)] }, ?_, ⟨selected, ?_⟩, fun request member => ?_⟩
    · rw [read, first, tryFrom, answered]
    · simp only
      omega
    · rcases List.mem_append.mp member with old | new
      · exact .inl old
      · exact .inr (List.mem_singleton.mp new)
  · rintro offset length total budget reader - outside
    apply tryFrom_outside _ outside
    exact fun url member => faithful url (List.mem_of_mem_drop member)

end RangeReader

/-- An upstream that has a content and sends what it is asked for in one piece. -/
def mirror (content : Bytes) : Upstream := fun _ offset last =>
  if offset ≤ last ∧ last < content.length then
    some
      { status := 206
        contentEncoding := none
        contentRange := some (String.ofList ("bytes ".toList ++ boundsText offset last ++
          '/' :: (decimalString content.length).toList))
        contentLength := some (last + 1 - offset)
        chunks := [Reads.slice content offset (last + 1 - offset)]
        complete := true }
  else none

theorem mirror_faithful {content : Bytes} (small : content.length < 2 ^ 128) :
    (mirror content).Faithful content := by
  constructor
  · intro before offset last order inside
    exact ⟨_, if_pos ⟨order, inside⟩, rfl, by simp, rfl, by simp, rfl, by simp⟩
  · intro before offset last answer range bounds size answered _ stated parsed
    rw [mirror] at answered
    split at answered
    · obtain rfl := Option.some.inj answered
      obtain rfl := Option.some.inj stated
      rw [parseContentRange_full _ _ small] at parsed
      exact (Prod.mk.inj (Except.ok.inj parsed)).2.symm
    · cases answered

end ArIoGateway
