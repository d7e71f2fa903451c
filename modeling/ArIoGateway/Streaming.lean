import ArIoGateway.Foundation.MachineWords
import ArIoGateway.Foundation.Pieces
import ArIoGateway.MerklePath

/-!
# Streamed reads

A transaction is read chunk by chunk.  One reader asks for the chunk at its position again and
again; the other one guesses where chunks start, fetches several of them at once and asks for the
ones that no guess has met.  Both share a small cache of chunks.
-/

namespace ArIoGateway

open Pieces

theorem maxChunkSize_pos : 0 < maxChunkSize := by decide

/-- The place of a transaction in its block and in the weave. -/
structure Geometry where
  txRoot : FixedBytes 32
  dataRoot : FixedBytes 32
  blockWeaveSize : Nat
  previousWeaveSize : Nat
  firstOffset : Nat
  endOffset : Nat
  dataSize : Nat

/-- What the proof of a chunk knows of its block. -/
structure BlockGeometry where
  txRoot : FixedBytes 32
  blockWeaveSize : Nat
  previousWeaveSize : Nat

/-- A chunk whose paths have been checked. -/
structure ProvenChunk where
  bytes : Bytes
  transaction : TxPath
  data : DataPath
  relativeOffset : Nat
  firstOffset : Nat

/-- Whether a proven chunk belongs to a transaction and answers for an offset. -/
def checkChunkGeometry (proof : ProvenChunk) (relativeOffset : Nat) (geometry : Geometry) :
    Checked Unit := do
  Checked.ensure (proof.transaction.dataRoot = geometry.dataRoot) "tx_path data root mismatch"
  Checked.ensure (proof.transaction.endOffset = geometry.endOffset) "tx_path end offset mismatch"
  Checked.ensure (proof.transaction.size = geometry.dataSize) "tx_path transaction size mismatch"
  Checked.ensure (proof.firstOffset = geometry.firstOffset) "tx_path start offset mismatch"
  Checked.ensure (proof.relativeOffset = relativeOffset) "tx_path relative offset mismatch"

/-- The transaction that is read, and the gateway that fetches its chunks. -/
structure ChunkSource where
  geometry : Geometry
  fetchVerifiedChunk : Nat → BlockGeometry → Checked (Option ProvenChunk)

/-- A chunk in the cache: its start in the transaction, its bytes and its hash. -/
structure CachedChunk where
  start : Nat
  bytes : Bytes
  hash : FixedBytes 32

/-- The chunks that a source has cached, and the starts of the chunks fetched by a read. -/
structure ChunkCache where
  cached : List CachedChunk
  fetched : List Nat

namespace ChunkCache

/-- The cached chunk that holds a position. -/
def find (cache : ChunkCache) (position : Nat) : Option CachedChunk :=
  cache.cached.find? fun chunk =>
    chunk.start ≤ position ∧ position - chunk.start < chunk.bytes.length

/-- Note that a chunk has been fetched. -/
def fetch (cache : ChunkCache) (chunk : CachedChunk) : ChunkCache :=
  { cache with fetched := cache.fetched ++ [chunk.start] }

/-- Put a chunk in front; the cache has room for two. -/
def push (cache : ChunkCache) (chunk : CachedChunk) : ChunkCache :=
  let cached := cache.cached.eraseP fun other => other.start = chunk.start
  let cached := if cached.length = 2 then cached.dropLast else cached
  { cache with cached := chunk :: cached }

end ChunkCache

namespace ChunkSource

variable (source : ChunkSource)

/-- Fetch the chunk at a position and check that it belongs to the transaction. -/
def fetch (position : Nat) : Checked CachedChunk := do
  let absolute := source.geometry.firstOffset + position
  Checked.ensure (absolute < 2 ^ 128) "stream chunk offset overflow"
  let fetched ← source.fetchVerifiedChunk absolute
    { txRoot := source.geometry.txRoot
      blockWeaveSize := source.geometry.blockWeaveSize
      previousWeaveSize := source.geometry.previousWeaveSize }
  let proof ← Checked.context fetched "streaming chunk not found"
  checkChunkGeometry proof position source.geometry
  Checked.ensure (proof.data.start < wordBound) "out of range integral type conversion attempted"
  pure ⟨proof.data.start, proof.bytes, proof.data.dataHash⟩

/-- The chunk at a position, from the cache or fetched. -/
def chunkAt (cache : ChunkCache) (position : Nat) : Checked ((Nat × Bytes) × ChunkCache) :=
  match cache.find position with
  | some chunk => pure ((chunk.start, chunk.bytes), cache.push chunk)
  | none => do
      let chunk ← source.fetch position
      pure ((chunk.start, chunk.bytes), (cache.fetch chunk).push chunk)

/-- The end of a range, when the range lies in the transaction. -/
def rangeEnd (offset length : Nat) : Checked Nat := do
  let finish ← Checked.context (Word.add offset length) "stream range overflow"
  Checked.ensure (finish ≤ source.geometry.dataSize) "stream range exceeds transaction"
  pure finish

/-- The bytes of a chunk from a position on, at most up to the end of a range. -/
def within (chunk : Nat × Bytes) (position finish : Nat) : Bytes :=
  (chunk.2.drop (position - chunk.1)).take
    (min (finish - position) (chunk.2.length - (position - chunk.1)))

/-- The loop of `read_at`. -/
def readLoop (cache : ChunkCache) (position finish : Nat) : Checked (Bytes × ChunkCache) :=
  if position < finish then do
    let (chunk, cache) ← source.chunkAt cache position
    let count := min (finish - position) (chunk.2.length - (position - chunk.1))
    if _progress : 0 < count then
      let (output, cache) ← readLoop cache (position + count) finish
      pure (within chunk position finish ++ output, cache)
    else .error "verified stream made no progress"
  else pure ([], cache)
termination_by finish - position

/-- Read a range, one chunk after another. -/
def readAt (cache : ChunkCache) (offset length : Nat) : Checked (Bytes × ChunkCache) := do
  let finish ← source.rangeEnd offset length
  source.readLoop cache offset finish

end ChunkSource

/-- How far a task that reads a chunk has come. -/
inductive ReadStage where
  | looking
  | fetching
  | storing (chunk : CachedChunk)
  | done (result : Checked (Nat × Bytes))

/-- A task that reads the chunk at a position. -/
structure ReadTask where
  position : Nat
  stage : ReadStage

/-- Take a task from one of its waits to the next. -/
def ReadTask.advance (source : ChunkSource) (cache : ChunkCache) (task : ReadTask) :
    Option (ChunkCache × ReadTask) :=
  match task.stage with
  | .looking =>
      match cache.find task.position with
      | some chunk => some (cache, { task with stage := .storing chunk })
      | none => some (cache, { task with stage := .fetching })
  | .fetching =>
      match source.fetch task.position with
      | .ok chunk => some (cache.fetch chunk, { task with stage := .storing chunk })
      | .error message => some (cache, { task with stage := .done (.error message) })
  | .storing chunk =>
      some (cache.push chunk, { task with stage := .done (.ok (chunk.start, chunk.bytes)) })
  | .done _ => none

/-- A stream that reads ahead: the positions that no task reads yet, the tasks that run or have a
result nobody took, the chunk that was taken last, the task that fills a gap, and the output. -/
structure ReadAhead where
  cache : ChunkCache
  guesses : List Nat
  buffered : List ReadTask
  next : Option (Nat × Bytes)
  reading : Option ReadTask
  position : Nat
  output : List Bytes
  failed : Option String

/-- What can happen next: the buffer starts a task, a task goes on, the stream takes the result of
the first task, the stream uses the chunk it has or asks for another one, and another read of the
same source puts a chunk into the cache. -/
inductive ReadAction where
  | launch
  | advance (place : Nat)
  | advanceReading
  | receive
  | select
  | collect
  | elsewhere (position : Nat)

/-- Whether an action belongs to another read. -/
def ReadAction.isElsewhere : ReadAction → Bool
  | .elsewhere _ => true
  | _ => false

namespace ReadAhead

/-- Whether the stream waits for the buffer. -/
def polls (state : ReadAhead) (finish : Nat) : Bool :=
  state.failed.isNone && state.position ≠ finish && state.reading.isNone && state.next.isNone

/-- Put out the bytes of a chunk from the position on. -/
def emit (state : ReadAhead) (finish : Nat) (chunk : Nat × Bytes) : ReadAhead :=
  if chunk.1 ≤ state.position ∧ state.position - chunk.1 < chunk.2.length then
    { state with
      output := state.output ++ [ChunkSource.within chunk state.position finish]
      position := state.position +
        min (finish - state.position) (chunk.2.length - (state.position - chunk.1)) }
  else { state with failed := some "verified stream made no progress" }

/-- Use the chunk that was taken, when it starts at or before the position; otherwise read the
chunk at the position. -/
def choose (state : ReadAhead) (finish : Nat) : ReadAhead :=
  match state.next with
  | some chunk =>
      if chunk.1 ≤ state.position then { state with next := none }.emit finish chunk
      else { state with reading := some ⟨state.position, .looking⟩ }
  | none => { state with reading := some ⟨state.position, .looking⟩ }

variable (source : ChunkSource) (width finish : Nat)

/-- One step of a stream that reads ahead with up to `width` tasks. -/
def step (state : ReadAhead) : ReadAction → Option ReadAhead
  | .launch =>
      match state.guesses with
      | [] => none
      | position :: rest =>
          if state.polls finish ∧ state.buffered.length < width then
            some
              { state with
                guesses := rest
                buffered := state.buffered ++ [⟨position, .looking⟩] }
          else none
  | .advance place => do
      let task ← state.buffered[place]?
      let (cache, task) ← task.advance source state.cache
      some { state with cache, buffered := state.buffered.set place task }
  | .advanceReading => do
      let task ← state.reading
      let (cache, task) ← task.advance source state.cache
      some { state with cache, reading := some task }
  | .receive =>
      match state.buffered with
      | ⟨_, .done result⟩ :: rest =>
          if state.polls finish then
            match result with
            | .ok chunk => some { state with buffered := rest, next := some chunk }
            | .error message => some { state with failed := some message }
          else none
      | _ => none
  | .select =>
      if state.failed.isNone ∧ state.position ≠ finish ∧ state.reading.isNone ∧
          (state.next.isSome ∨ state.guesses = [] ∧ state.buffered = []) then
        some (state.choose finish)
      else none
  | .collect =>
      match state.reading with
      | some ⟨_, .done (.ok chunk)⟩ => some ({ state with reading := none }.emit finish chunk)
      | some ⟨_, .done (.error message)⟩ =>
          some { state with reading := none, failed := some message }
      | _ => none
  | .elsewhere position =>
      if position < source.geometry.dataSize then
        match source.fetch position with
        | .ok chunk => some { state with cache := state.cache.push chunk }
        | .error _ => none
      else none

end ReadAhead

/-- The stream that reads a range ahead; the caller's cache is the source's. -/
def ChunkSource.readAhead (source : ChunkSource) (cached : List CachedChunk)
    (offset length : Nat) : Checked ReadAhead := do
  let finish ← source.rangeEnd offset length
  pure
    { cache := ⟨cached, []⟩
      guesses := strides maxChunkSize offset finish
      buffered := []
      next := none
      reading := none
      position := offset
      output := []
      failed := none }

end ArIoGateway
