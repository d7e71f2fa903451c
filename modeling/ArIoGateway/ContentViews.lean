import ArIoGateway.Base64Data
import ArIoGateway.SpoolBudget
import ArIoGateway.Streaming

/-!
# Views of content

A content is in memory, in a file, streamed from its chunks or decoded from base64.  Each form has
an offset and a length of its own, is cut further, and is read at a place, from the front, or as a
whole by the hashers and by the writer that materializes it.
-/

namespace ArIoGateway

open Octets

/-- The result of an operation, or nothing while an answer that it waits for has not come. -/
abbrev Awaited (α : Type) := ExceptT String Option α

namespace Awaited

def waiting {α : Type} : Awaited α := (none : Option (Checked α))

def settled {α : Type} (result : Checked α) : Awaited α := (some result : Option (Checked α))

end Awaited

/-- The answer of the system to a positional read. -/
inductive FileAnswer where
  | read (count : Nat)
  | interrupted
  | failed
deriving DecidableEq

/-- `ContentFile::read_exact_at`.  The system returns at least one byte when there is one, and no
more than there are. -/
def readExactAt (file : Bytes) : List FileAnswer → (offset length : Nat) → Awaited Bytes
  | _, _, 0 => return []
  | [], _, _ + 1 => .waiting
  | .interrupted :: answers, offset, length + 1 => readExactAt file answers offset (length + 1)
  | .failed :: _, _, _ + 1 => throw "read failed"
  | .read count :: answers, offset, length + 1 => do
      let available := min (length + 1) (file.length - offset)
      if available = 0 then throw "unexpected end of file"
      let count := max 1 (min count available)
      let rest ← readExactAt file answers (offset + count) (length + 1 - count)
      return (file.drop offset).take count ++ rest

/-- `Content` with its storage. -/
inductive Content where
  | memory (bytes : Bytes)
  | file (file : Bytes) (offset len : Nat)
  | stream (source : ChunkSource) (offset len : Nat)
  | base64 (source : Base64Data) (offset len : Nat)

/-- What the parts around a content do while it is read: the buffers in which encoded text comes,
the chunks that the source has cached, and what its stream that reads ahead puts out. -/
structure ReadSurroundings where
  buffers : Bytes → Parts
  cached : List CachedChunk
  delivered : List Bytes

/-- What a poll meets: the task or the stream behind the reader is not ready, or it is, and a task
has got answers from the system. -/
inductive ReadEvent where
  | pending
  | arrives (answers : List FileAnswer)
deriving DecidableEq

structure ReaderFile where
  storage : Bytes
  offset : Nat
  buffer : Bytes
  consumed : Nat
deriving DecidableEq

/-- The state of a reader.  A task has its file and the length that it reads; a stream has the rest
of its last piece and the pieces to come. -/
inductive ReadState where
  | memory (bytes : Bytes)
  | file (file : ReaderFile)
  | reading (file : ReaderFile) (length : Nat)
  | stream (chunk : Bytes) (pieces : List Bytes)
  | failed
deriving DecidableEq

structure ContentReader where
  state : ReadState
  remaining : Nat
deriving DecidableEq

inductive ContentPoll where
  | pending
  | ready (bytes : Bytes)
  | failed (message : String)
deriving DecidableEq

/-- The bytes that a poll puts out. -/
def ContentPoll.bytes : ContentPoll → Bytes
  | .ready bytes => bytes
  | _ => []

namespace ContentReader

/-- Put out what the buffer of a file has, up to the room. -/
def serve (file : ReaderFile) (remaining room : Nat) : ContentReader × ContentPoll :=
  let length := min room (file.buffer.length - file.consumed)
  (⟨.file { file with consumed := file.consumed + length }, remaining - length⟩,
    .ready ((file.buffer.drop file.consumed).take length))

/-- Poll the task that reads a file. -/
def pollTask (file : ReaderFile) (length remaining room : Nat) :
    ReadEvent → ContentReader × ContentPoll
  | .pending => (⟨.reading file length, remaining⟩, .pending)
  | .arrives answers =>
      match readExactAt file.storage answers file.offset length with
      | none => (⟨.reading file length, remaining⟩, .pending)
      | some (.error message) => (⟨.failed, remaining⟩, .failed message)
      | some (.ok bytes) => serve ⟨file.storage, file.offset + length, bytes, 0⟩ remaining room

/-- `poll_read` with a buffer that has some room. -/
def poll (reader : ContentReader) (room : Nat) (event : ReadEvent) : ContentReader × ContentPoll :=
  if room = 0 ∨ reader.remaining = 0 then (reader, .ready [])
  else
    match reader.state with
    | .stream chunk pieces =>
        if chunk = [] ∧ event = .pending then (reader, .pending)
        else
          match fillBuf (chunk :: pieces) with
          | [] => (⟨.stream [] [], reader.remaining⟩, .ready [])
          | part :: parts =>
              (⟨.stream (part.drop room) parts, reader.remaining - (part.take room).length⟩,
                .ready (part.take room))
    | .memory bytes =>
        let offset := bytes.length - reader.remaining
        let length := min room reader.remaining
        (⟨.memory bytes, reader.remaining - length⟩, .ready ((bytes.drop offset).take length))
    | .file file =>
        if file.consumed < file.buffer.length then serve file reader.remaining room
        else
          pollTask file (min (min ioChunkSize reader.remaining) room) reader.remaining room event
    | .reading file length => pollTask file length reader.remaining room event
    | .failed => (reader, .failed "content reader unavailable")

/-- The results of polls, each with its room and what it meets. -/
def pollAll : List (Nat × ReadEvent) → ContentReader → List ContentPoll × ContentReader
  | [], reader => ([], reader)
  | (room, event) :: polls, reader =>
      let (reader, result) := reader.poll room event
      let (results, reader) := pollAll polls reader
      (result :: results, reader)

/-- `read_exact` into a buffer. -/
def readExact : List ReadEvent → ContentReader → (length : Nat) → Awaited Bytes
  | _, _, 0 => return []
  | [], _, _ + 1 => .waiting
  | event :: events, reader, length + 1 =>
      match reader.poll (length + 1) event with
      | (reader, .pending) => readExact events reader (length + 1)
      | (_, .failed message) => throw message
      | (reader, .ready bytes) => do
          if bytes = [] then throw "early eof"
          let rest ← readExact events reader (length + 1 - bytes.length)
          return bytes ++ rest

/-- A loop that reads into a buffer until nothing comes, with what it does with the bytes. -/
def consume {σ : Type} (take : σ → Bytes → Checked σ) (room : Nat) :
    List ReadEvent → ContentReader → σ → Awaited σ
  | [], _, _ => .waiting
  | event :: events, reader, state =>
      match reader.poll room event with
      | (reader, .pending) => consume take room events reader state
      | (_, .failed message) => throw message
      | (reader, .ready bytes) => do
          if bytes = [] then return state
          else
            let state ← .settled (take state bytes)
            consume take room events reader state

end ContentReader

namespace ContentWriter

/-- `ContentWriter::new`; whether the budget has the bytes of a file. -/
def create (expectedLen memoryLimit : Nat) (reserved : Bool) : Checked ContentWriter :=
  if expectedLen ≤ memoryLimit then .ok ⟨.memory [], expectedLen, 0, []⟩
  else if reserved then .ok ⟨.file (some ⟨expectedLen, []⟩), expectedLen, 0, []⟩
  else .error "content spool budget exhausted"

/-- A chunk of `ContentWriter::write`. -/
def writeChunk (writer : ContentWriter) (chunk : Bytes) : Checked ContentWriter :=
  match writer.storage with
  | .memory buffer => .ok (writer.advance (.memory (buffer ++ chunk)) chunk)
  | .file (some file) => .ok (writer.advance (.file (some (file.append chunk))) chunk)
  | .file none => .error "content writer unavailable"

def write (writer : ContentWriter) (bytes : Bytes) : Checked ContentWriter := do
  Checked.ensure (bytes.length ≤ writer.expectedLen - writer.written)
    "content exceeds expected length"
  (Batches.chunks ioChunkSize bytes).foldlM writeChunk writer

/-- `ContentWriter::finish`. -/
def close (suite : HashSuite) (writer : ContentWriter) : Checked (Content × FixedBytes 32) := do
  Checked.ensure (writer.written = writer.expectedLen) "content is shorter than expected"
  match writer.storage with
  | .memory bytes => return (.memory bytes, suite.sha256 [writer.hashed])
  | .file (some file) =>
      return (.file file.bytes 0 writer.expectedLen, suite.sha256 [writer.hashed])
  | .file none => .error "content writer unavailable"

end ContentWriter

namespace Content

def len : Content → Nat
  | .memory bytes => bytes.length
  | .file _ _ len => len
  | .stream _ _ len => len
  | .base64 _ _ len => len

def isMaterialized : Content → Bool
  | .memory _ => true
  | .file _ _ _ => true
  | _ => false

/-- `slice`. -/
def slice (content : Content) (start finish : Nat) : Checked Content := do
  Checked.ensure (start ≤ finish ∧ finish ≤ content.len) "content slice is out of bounds"
  match content with
  | .memory bytes => return .memory ((bytes.drop start).take (finish - start))
  | .file storage offset _ =>
      let offset ← Checked.context (Word.add offset start) "content slice offset overflow"
      return .file storage offset (finish - start)
  | .stream source offset _ =>
      let offset ← Checked.context (Word.add offset start) "stream slice offset overflow"
      return .stream source offset (finish - start)
  | .base64 source offset _ =>
      let offset ← Checked.context (Word.add offset start) "decoded slice offset overflow"
      return .base64 source offset (finish - start)

/-- `reader`. -/
def reader (content : Content) (around : ReadSurroundings) : Checked ContentReader :=
  match content with
  | .memory bytes => .ok ⟨.memory bytes, bytes.length⟩
  | .file storage offset len => .ok ⟨.file ⟨storage, offset, [], 0⟩, len⟩
  | .stream _ _ len => .ok ⟨.stream [] around.delivered, len⟩
  | .base64 source offset len =>
      match source.stream around.buffers offset len with
      | .ok pieces => .ok ⟨.stream [] pieces, len⟩
      | .error _ => .error "reading encoded data"

/-- Read a whole view, as `read_at` does. -/
def readView (view : Content) (around : ReadSurroundings) (events : List ReadEvent)
    (length : Nat) : Awaited Bytes :=
  match view with
  | .stream source offset len => do
      let (bytes, _) ← .settled (source.readAt ⟨around.cached, []⟩ offset len)
      return bytes
  | .memory bytes => return bytes
  | view =>
      if length = 0 then return []
      else do
        let reader ← .settled (view.reader around)
        reader.readExact events length

/-- `read_at`. -/
def readAt (content : Content) (around : ReadSurroundings) (events : List ReadEvent)
    (offset length : Nat) : Awaited Bytes := do
  let finish ← .settled (Checked.context (Word.add offset length) "content read offset overflow")
  let view ← .settled (content.slice offset finish)
  view.readView around events length

/-- The pieces of a file that the hashers get. -/
def filePieces (storage : Bytes) (offset len : Nat) :
    (start : Nat) → List (List FileAnswer) → Awaited (List Bytes)
  | start, [] => if start < len then .waiting else return []
  | start, answers :: others =>
      if start < len then do
        let position ← .settled (Checked.context (Word.add offset start) "content offset overflow")
        let piece ← readExactAt storage answers position (min ioChunkSize (len - start))
        let pieces ← filePieces storage offset len (start + ioChunkSize) others
        return piece :: pieces
      else return []

/-- The pieces that the hashers get. -/
def hashedPieces (content : Content) (around : ReadSurroundings) (events : List ReadEvent)
    (answers : List (List FileAnswer)) : Awaited (List Bytes) :=
  match content with
  | .memory bytes => return [bytes]
  | .file storage offset len => filePieces storage offset len 0 answers
  | .stream _ _ _ => return around.delivered
  | .base64 source offset len => do
      let reader ← .settled (Content.reader (.base64 source offset len) around)
      reader.consume (fun pieces bytes => .ok (pieces ++ [bytes])) (min ioChunkSize len) events []

/-- `hashes`. -/
def hashes (suite : HashSuite) (content : Content) (around : ReadSurroundings)
    (events : List ReadEvent) (answers : List (List FileAnswer)) :
    Awaited (FixedBytes 32 × FixedBytes 48) := do
  let pieces ← content.hashedPieces around events answers
  return (suite.sha256 pieces, suite.sha384 pieces)

/-- What a materialization depends on: the limit of memory, the size of the spool, whether the
spool has room now, and whether the content stays with its chunk cache. -/
structure MaterializeLimits where
  memoryLimit : Nat
  maxBytes : Nat
  reserved : Bool
  keepsCache : Bool

/-- `materialize`. -/
def materialize (suite : HashSuite) (content : Content) (limits : MaterializeLimits)
    (around : ReadSurroundings) (events : List ReadEvent) (answers : List (List FileAnswer)) :
    Awaited (Content × FixedBytes 32) := do
  if limits.keepsCache ∨ ¬content.isMaterialized ∧ content.len > limits.memoryLimit ∧
      content.len > limits.maxBytes then
    let (hash, _) ← content.hashes suite around events answers
    return (content, hash)
  match content with
  | .base64 source offset len =>
      let writer ← .settled (ContentWriter.create len limits.memoryLimit limits.reserved)
      let reader ← .settled (Content.reader (.base64 source offset len) around)
      let writer ← reader.consume ContentWriter.write (min ioChunkSize len) events writer
      .settled (writer.close suite)
  | .stream _ _ len =>
      let writer ← .settled (ContentWriter.create len limits.memoryLimit limits.reserved)
      let writer ← .settled (around.delivered.foldlM ContentWriter.write writer)
      .settled (writer.close suite)
  | content =>
      let (hash, _) ← content.hashes suite around events answers
      return (content, hash)

end Content

end ArIoGateway
