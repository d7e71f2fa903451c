import ArIoGateway.Foundation.Runs
import ArIoGateway.Streaming

/-!
# Streamed reads are slices

However the tasks of a stream that reads ahead take turns, the stream puts out the bytes of its
range in order, fetches no chunk twice and comes to an end.
-/

namespace ArIoGateway

open Pieces

/-- The gateway answers for each offset of a transaction with the chunk that holds it. -/
structure Serves (source : ChunkSource) (chunks : List Bytes) : Prop where
  bounded : ∀ chunk ∈ chunks, chunk.length ≤ maxChunkSize
  size : chunks.flatten.length = source.geometry.dataSize
  fits : source.geometry.firstOffset + source.geometry.dataSize ≤ 2 ^ 128
  answers : ∀ position start chunk, pieceAt chunks position = some (start, chunk) →
    ∃ proof,
      source.fetchVerifiedChunk (source.geometry.firstOffset + position)
          ⟨source.geometry.txRoot, source.geometry.blockWeaveSize,
            source.geometry.previousWeaveSize⟩ = .ok (some proof) ∧
        checkChunkGeometry proof position source.geometry = .ok () ∧
        proof.data.start = start ∧ proof.bytes = chunk

/-- A cached chunk is a chunk of the transaction. -/
def CachedChunk.Holds (chunks : List Bytes) (chunk : CachedChunk) : Prop :=
  ∃ position, pieceAt chunks position = some (chunk.start, chunk.bytes)

/-- Every cached chunk is a chunk of the transaction. -/
def ChunkCache.Holds (chunks : List Bytes) (cache : ChunkCache) : Prop :=
  ∀ chunk ∈ cache.cached, chunk.Holds chunks

@[simp] theorem ChunkCache.fetched_push (cache : ChunkCache) (chunk : CachedChunk) :
    (cache.push chunk).fetched = cache.fetched := rfl

@[simp] theorem ChunkCache.fetched_fetch (cache : ChunkCache) (chunk : CachedChunk) :
    (cache.fetch chunk).fetched = cache.fetched ++ [chunk.start] := rfl

@[simp] theorem ChunkCache.cached_fetch (cache : ChunkCache) (chunk : CachedChunk) :
    (cache.fetch chunk).cached = cache.cached := rfl

section

variable {source : ChunkSource} {chunks : List Bytes} {cache : ChunkCache}

theorem ChunkCache.Holds.push (holds : cache.Holds chunks) {chunk : CachedChunk}
    (chunkHolds : chunk.Holds chunks) : (cache.push chunk).Holds chunks := by
  intro other member
  rcases List.mem_cons.mp member with rfl | inRest
  · exact chunkHolds
  · refine holds other (List.mem_of_mem_eraseP (p := fun other => other.start = chunk.start) ?_)
    split at inRest
    · exact List.dropLast_subset _ inRest
    · exact inRest

theorem ChunkCache.Holds.find (holds : cache.Holds chunks) {position : Nat} {chunk : CachedChunk}
    (found : cache.find position = some chunk) :
    pieceAt chunks position = some (chunk.start, chunk.bytes) := by
  obtain ⟨other, held⟩ := holds chunk (List.mem_of_find?_eq_some found)
  have inside := List.find?_some found
  simp only [decide_eq_true_eq] at inside
  exact pieceAt_of_holds held inside.1 (by omega)

theorem ChunkSource.fetch_of_pieceAt (serves : Serves source chunks) {position start : Nat}
    {chunk : Bytes} (found : pieceAt chunks position = some (start, chunk))
    (inside : position < chunks.flatten.length) (word : position < wordBound) :
    ∃ hash, source.fetch position = .ok ⟨start, chunk, hash⟩ := by
  obtain ⟨proof, answered, belongs, rfl, rfl⟩ := serves.answers position start chunk found
  have before := (holds_of_pieceAt found).1
  have size := serves.size
  have fits := serves.fits
  refine ⟨proof.data.dataHash, ?_⟩
  have absolute : source.geometry.firstOffset + position < 2 ^ 128 :=
    lt_of_lt_of_le (Nat.add_lt_add_left (size ▸ inside) _) fits
  simp only [fetch, Checked.ensure_of absolute, answered, belongs, Checked.context,
    Checked.ensure_of (lt_of_le_of_lt before word), Checked.ok_bind]
  rfl

theorem ChunkSource.pieceAt_of_fetch (serves : Serves source chunks) {position : Nat}
    {chunk : CachedChunk} (inside : position < chunks.flatten.length)
    (fetched : source.fetch position = .ok chunk) :
    pieceAt chunks position = some (chunk.start, chunk.bytes) := by
  obtain ⟨⟨start, bytes⟩, found⟩ := exists_pieceAt inside
  obtain ⟨proof, answered, _, rfl, rfl⟩ := serves.answers position start bytes found
  simp only [fetch, answered, Checked.bind_eq_ok, Checked.context_eq_ok, Checked.pure_eq_ok,
    Except.ok.injEq] at fetched
  obtain ⟨_, _, _, rfl, _, same, _, _, _, _, rfl⟩ := fetched
  cases same
  exact found

end

/-- The chunk that holds a position. -/
def chunkOf (chunks : List Bytes) (position : Nat) : Nat × Bytes :=
  (pieceAt chunks position).getD (0, [])

/-- A chunk that a stream has asked for or will ask for, and whether it may still be fetched. -/
structure Slot where
  chunk : Nat × Bytes
  fresh : Bool

/-- The end of the chunk of a slot. -/
def Slot.finish (slot : Slot) : Nat := slot.chunk.1 + slot.chunk.2.length

/-- The slots of a stream lie in order between its position and its end, the fresh ones have not
been fetched, and the position is past all other chunks that have. -/
structure Itinerary (chunks : List Bytes) (finish position : Nat) (fetched : List Nat)
    (slots : List Slot) : Prop where
  nodup : fetched.Nodup
  ordered : slots.Pairwise fun one other => one.finish ≤ other.chunk.1
  real : ∀ slot ∈ slots, ∃ place, pieceAt chunks place = some slot.chunk
  ahead : ∀ slot ∈ slots, position < slot.finish ∧ slot.chunk.1 < finish
  unfetched : ∀ slot ∈ slots, slot.fresh → slot.chunk.1 ∉ fetched
  settled : ∀ start ∈ fetched, (∃ slot ∈ slots, slot.chunk.1 = start) ∨
    ∀ place piece, pieceAt chunks place = some (start, piece) →
      min (start + piece.length) finish ≤ position

section

variable {chunks : List Bytes} {finish position : Nat} {fetched : List Nat} {before after : List Slot}
  {slot : Slot} {slots : List Slot}

namespace Itinerary

theorem start_lt_finish (itinerary : Itinerary chunks finish position fetched slots)
    (member : slot ∈ slots) : slot.chunk.1 < slot.finish := by
  obtain ⟨place, found⟩ := itinerary.real slot member
  have holds := @holds_of_pieceAt _ chunks place slot.chunk.1 slot.chunk.2 found
  rw [Slot.finish]
  omega

theorem start_ne (itinerary : Itinerary chunks finish position fetched (before ++ slot :: after))
    {other : Slot} (member : other ∈ before ∨ other ∈ after) : other.chunk.1 ≠ slot.chunk.1 := by
  have here : slot.chunk.1 < slot.finish := itinerary.start_lt_finish (by simp)
  have split := List.pairwise_append.mp itinerary.ordered
  rcases member with inBefore | inAfter
  · have there := itinerary.start_lt_finish (List.mem_append_left _ inBefore)
    have order := split.2.2 other inBefore slot List.mem_cons_self
    omega
  · have order := (List.pairwise_cons.mp split.2.1).1 other inAfter
    omega

/-- A slot may stop being fresh. -/
theorem settle (itinerary : Itinerary chunks finish position fetched (before ++ slot :: after))
    (fresh : Bool) (weaker : fresh → slot.fresh) :
    Itinerary chunks finish position fetched (before ++ ⟨slot.chunk, fresh⟩ :: after) where
  nodup := itinerary.nodup
  ordered := by
    simpa [List.pairwise_append, Slot.finish] using itinerary.ordered
  real := by
    have real := itinerary.real
    simp only [List.forall_mem_append, List.forall_mem_cons] at real ⊢
    exact real
  ahead := by
    have ahead := itinerary.ahead
    simp only [List.forall_mem_append, List.forall_mem_cons] at ahead ⊢
    exact ahead
  unfetched := by
    have unfetched := itinerary.unfetched
    simp only [List.forall_mem_append, List.forall_mem_cons] at unfetched ⊢
    exact ⟨unfetched.1, fun isFresh => unfetched.2.1 (weaker isFresh), unfetched.2.2⟩
  settled := by
    intro start member
    refine (itinerary.settled start member).imp_left ?_
    rintro ⟨other, inSlots, same⟩
    rcases List.mem_append.mp inSlots with inBefore | inRest
    · exact ⟨other, List.mem_append_left _ inBefore, same⟩
    · rcases List.mem_cons.mp inRest with rfl | inAfter
      · exact ⟨_, List.mem_append_right _ List.mem_cons_self, same⟩
      · exact ⟨other, List.mem_append_right _ (List.mem_cons_of_mem _ inAfter), same⟩

/-- The chunk of a fresh slot may be fetched. -/
theorem fetch (itinerary : Itinerary chunks finish position fetched (before ++ slot :: after))
    (isFresh : slot.fresh) :
    Itinerary chunks finish position (fetched ++ [slot.chunk.1])
      (before ++ ⟨slot.chunk, false⟩ :: after) := by
  have calm := itinerary.settle false (by simp)
  have missing := itinerary.unfetched slot (by simp) isFresh
  refine { calm with nodup := ?_, unfetched := ?_, settled := ?_ }
  · exact itinerary.nodup.append (List.nodup_singleton _) (by simpa using missing)
  · intro other member otherFresh
    have old := calm.unfetched other member otherFresh
    have elsewhere : other ∈ before ∨ other ∈ after := by
      rcases List.mem_append.mp member with inBefore | inRest
      · exact .inl inBefore
      · rcases List.mem_cons.mp inRest with rfl | inAfter
        · cases otherFresh
        · exact .inr inAfter
    have differ := itinerary.start_ne elsewhere
    simp [old, differ]
  · intro start member
    rcases List.mem_append.mp member with old | new
    · exact calm.settled start old
    · exact .inl ⟨_, List.mem_append_right _ List.mem_cons_self, (List.mem_singleton.mp new).symm⟩

/-- The position may pass the first slot. -/
theorem pass (itinerary : Itinerary chunks finish position fetched (slot :: slots)) {next : Nat}
    (later : position ≤ next) (inside : next ≤ slot.finish)
    (passed : min slot.finish finish ≤ next) :
    Itinerary chunks finish next fetched slots where
  nodup := itinerary.nodup
  ordered := (List.pairwise_cons.mp itinerary.ordered).2
  real := fun other member => itinerary.real other (List.mem_cons_of_mem _ member)
  ahead := by
    intro other member
    have order := (List.pairwise_cons.mp itinerary.ordered).1 other member
    have nonempty := itinerary.start_lt_finish (List.mem_cons_of_mem slot member)
    exact ⟨by omega, (itinerary.ahead other (List.mem_cons_of_mem _ member)).2⟩
  unfetched := fun other member => itinerary.unfetched other (List.mem_cons_of_mem _ member)
  settled := by
    intro start member
    rcases itinerary.settled start member with ⟨other, inSlots, rfl⟩ | past
    · rcases List.mem_cons.mp inSlots with rfl | inRest
      · refine .inr fun place piece found => ?_
        obtain ⟨own, foundOwn⟩ := itinerary.real other List.mem_cons_self
        rw [eq_of_start_eq found foundOwn]
        exact passed
      · exact .inl ⟨other, inRest, rfl⟩
    · exact .inr fun place piece found => (past place piece found).trans later

/-- The chunk at the position may be asked for, when every slot starts past it. -/
theorem ask (itinerary : Itinerary chunks finish position fetched slots) {chunk : Nat × Bytes}
    (found : pieceAt chunks position = some chunk) (unfinished : position < finish)
    (gap : ∀ slot ∈ slots, position < slot.chunk.1) :
    Itinerary chunks finish position fetched (⟨chunk, true⟩ :: slots) := by
  obtain ⟨start, piece⟩ := chunk
  have holds := holds_of_pieceAt found
  refine ⟨itinerary.nodup, ?_, ?_, ?_, ?_, ?_⟩
  · refine List.pairwise_cons.mpr ⟨fun other member => ?_, itinerary.ordered⟩
    obtain ⟨place, foundOther⟩ := itinerary.real other member
    exact finish_le_of_start_lt found foundOther (lt_of_le_of_lt holds.1 (gap other member))
  · exact List.forall_mem_cons.mpr ⟨⟨position, found⟩, itinerary.real⟩
  · exact List.forall_mem_cons.mpr ⟨⟨holds.2, by dsimp only; omega⟩, itinerary.ahead⟩
  · refine List.forall_mem_cons.mpr ⟨fun _ member => ?_, itinerary.unfetched⟩
    rcases itinerary.settled start member with ⟨other, inSlots, same⟩ | past
    · have later := gap other inSlots
      omega
    · have before := past position piece found
      omega
  · intro other member
    refine (itinerary.settled other member).imp_left ?_
    rintro ⟨slot, inSlots, same⟩
    exact ⟨slot, List.mem_cons_of_mem _ inSlots, same⟩

end Itinerary

end

/-- Whether a task may still fetch. -/
def ReadStage.fresh : ReadStage → Bool
  | .looking | .fetching => true
  | _ => false

/-- How many waits a task has in front of it. -/
def ReadStage.left : ReadStage → Nat
  | .looking => 4
  | .fetching => 3
  | .storing _ => 2
  | .done _ => 1

/-- A task that has a chunk has the one at its position, and no task fails. -/
def ReadTask.Holds (chunks : List Bytes) (task : ReadTask) : Prop :=
  match task.stage with
  | .looking | .fetching => True
  | .storing chunk => pieceAt chunks task.position = some (chunk.start, chunk.bytes)
  | .done (.ok chunk) => pieceAt chunks task.position = some chunk
  | .done (.error _) => False

/-- The slot of a task. -/
def ReadTask.slot (chunks : List Bytes) (task : ReadTask) : Slot :=
  ⟨chunkOf chunks task.position, task.stage.fresh⟩

/-- The slots of a stream. -/
def ReadAhead.slots (chunks : List Bytes) (state : ReadAhead) : List Slot :=
  state.reading.toList.map (ReadTask.slot chunks) ++
    (state.next.toList.map (fun chunk => ⟨chunk, false⟩) ++
      (state.buffered.map (ReadTask.slot chunks) ++
        state.guesses.map fun position => ⟨chunkOf chunks position, true⟩))

/-- What every step of a stream keeps. -/
structure Streams (chunks : List Bytes) (offset finish : Nat) (state : ReadAhead) : Prop where
  failed : state.failed = none
  cached : state.cache.Holds chunks
  buffered : ∀ task ∈ state.buffered, task.Holds chunks ∧ task.position < finish
  guesses : ∀ position ∈ state.guesses, position < finish
  reading : ∀ task ∈ state.reading, task.Holds chunks ∧ task.position = state.position
  gap : state.reading.isSome → state.position < finish
  bounds : offset ≤ state.position ∧ state.position ≤ finish
  output : state.output.flatten = (chunks.flatten.drop offset).take (state.position - offset)
  itinerary : Itinerary chunks finish state.position state.cache.fetched (state.slots chunks)

section

variable {source : ChunkSource} {chunks : List Bytes} {cache : ChunkCache} {offset finish width : Nat}

theorem chunkOf_eq {position : Nat} {chunk : Nat × Bytes}
    (found : pieceAt chunks position = some chunk) : chunkOf chunks position = chunk := by
  rw [chunkOf, found]
  rfl

theorem pieceAt_chunkOf {position : Nat} (inside : position < chunks.flatten.length) :
    pieceAt chunks position = some (chunkOf chunks position) := by
  obtain ⟨chunk, found⟩ := exists_pieceAt inside
  rw [chunkOf_eq found, found]

theorem holds_of_chunkOf {position : Nat}
    (found : pieceAt chunks position = some (chunkOf chunks position)) :
    (chunkOf chunks position).1 ≤ position ∧
      position < (chunkOf chunks position).1 + (chunkOf chunks position).2.length :=
  holds_of_pieceAt found

/-- What one wait of a task does: it fetches a chunk that it may still fetch, or nothing. -/
theorem ReadTask.advance_cases (serves : Serves source chunks) (cached : cache.Holds chunks)
    {task : ReadTask} (holds : task.Holds chunks) (inside : task.position < chunks.flatten.length)
    (word : task.position < wordBound) {after : ChunkCache} {other : ReadTask}
    (taken : task.advance source cache = some (after, other)) :
    after.Holds chunks ∧ other.Holds chunks ∧ other.position = task.position ∧
      other.stage.left < task.stage.left ∧
      (after.fetched = cache.fetched ∧ (other.stage.fresh → task.stage.fresh) ∨
        task.stage.fresh ∧ other.stage.fresh = false ∧
          after.fetched = cache.fetched ++ [(chunkOf chunks task.position).1]) := by
  obtain ⟨position, stage⟩ := task
  cases stage with
  | looking =>
      cases found : cache.find position with
      | some chunk =>
          simp only [advance, found, Option.some.injEq, Prod.mk.injEq] at taken
          obtain ⟨rfl, rfl⟩ := taken
          exact ⟨cached, cached.find found, rfl, by simp [ReadStage.left],
            .inl ⟨rfl, fun _ => rfl⟩⟩
      | none =>
          simp only [advance, found, Option.some.injEq, Prod.mk.injEq] at taken
          obtain ⟨rfl, rfl⟩ := taken
          exact ⟨cached, trivial, rfl, by simp [ReadStage.left], .inl ⟨rfl, fun _ => rfl⟩⟩
  | fetching =>
      have found := pieceAt_chunkOf inside
      obtain ⟨hash, fetched⟩ := ChunkSource.fetch_of_pieceAt serves found inside word
      simp only [advance, fetched, Option.some.injEq, Prod.mk.injEq] at taken
      obtain ⟨rfl, rfl⟩ := taken
      exact ⟨cached, found, rfl, by simp [ReadStage.left], .inr ⟨rfl, rfl, rfl⟩⟩
  | storing chunk =>
      simp only [advance, Option.some.injEq, Prod.mk.injEq] at taken
      obtain ⟨rfl, rfl⟩ := taken
      exact ⟨cached.push ⟨position, holds⟩, holds, rfl, by simp [ReadStage.left],
        .inl ⟨rfl, id⟩⟩
  | done result => cases taken

theorem ReadAhead.polls_iff {state : ReadAhead} :
    state.polls finish ↔ state.failed = none ∧ state.position ≠ finish ∧ state.reading = none ∧
      state.next = none := by
  simp [polls, and_assoc]

/-- A task of a stream takes one wait: its slot stays in its place. -/
theorem Itinerary.advance {position : Nat} {before after : List Slot} {task other : ReadTask}
    {fetched moreFetched : List Nat}
    (itinerary : Itinerary chunks finish position fetched (before ++ task.slot chunks :: after))
    (same : other.position = task.position)
    (change : moreFetched = fetched ∧ (other.stage.fresh → task.stage.fresh) ∨
      task.stage.fresh ∧ other.stage.fresh = false ∧
        moreFetched = fetched ++ [(chunkOf chunks task.position).1]) :
    Itinerary chunks finish position moreFetched (before ++ other.slot chunks :: after) := by
  rcases change with ⟨rfl, weaker⟩ | ⟨fresh, stale, rfl⟩
  · have settled := itinerary.settle other.stage.fresh weaker
    rwa [ReadTask.slot, same]
  · have settled := itinerary.fetch fresh
    rwa [ReadTask.slot, same, stale]

/-- What is left to do: bytes to put out, guesses to start, waits of the tasks. -/
def ReadAhead.remaining (finish : Nat) (state : ReadAhead) : Nat :=
  6 * (finish - state.position) + 6 * state.guesses.length +
    (state.buffered.map fun task => task.stage.left + 1).sum + state.next.toList.length +
      state.reading.elim 5 fun task => task.stage.left

/-- Put out bytes of the chunk of the first slot. -/
theorem Streams.emit {state : ReadAhead} {next : Option (Nat × Bytes)} {chunk : Nat × Bytes}
    {fresh : Bool} (streams : Streams chunks offset finish state)
    (unfinished : state.position < finish) (starts : chunk.1 ≤ state.position)
    (first : state.slots chunks =
      ⟨chunk, fresh⟩ :: { state with next := next, reading := none }.slots chunks) :
    Streams chunks offset finish
        ({ state with next := next, reading := none }.emit finish chunk) ∧
      ({ state with next := next, reading := none }.emit finish chunk).remaining finish + 6 ≤
        { state with next := next, reading := none }.remaining finish := by
  have itinerary := streams.itinerary
  rw [first] at itinerary
  have ahead := (itinerary.ahead _ List.mem_cons_self).1
  obtain ⟨place, found⟩ := itinerary.real _ List.mem_cons_self
  obtain ⟨start, bytes⟩ := chunk
  simp only [Slot.finish] at ahead starts found
  have here := pieceAt_of_holds found starts ahead
  obtain ⟨after, before⟩ := streams.bounds
  have count : 0 < min (finish - state.position) (bytes.length - (state.position - start)) := by
    omega
  have inside : start ≤ state.position ∧ state.position - start < bytes.length := by omega
  simp only [ReadAhead.emit, if_pos inside]
  constructor
  · exact
      { failed := streams.failed
        cached := streams.cached
        buffered := streams.buffered
        guesses := streams.guesses
        reading := by simp
        gap := by simp
        bounds := by dsimp only; omega
        output := by
          have extended := take_append_of_pieceAt here after before
          rw [List.flatten_append, streams.output, List.flatten_singleton]
          exact extended
        itinerary := by
          refine itinerary.pass (Nat.le_add_right _ _) ?_ ?_ <;> simp only [Slot.finish] <;> omega }
  · simp only [ReadAhead.remaining]
    omega

/-- The stream uses the chunk it has or asks for the one at its position. -/
theorem Streams.choose {state : ReadAhead} (streams : Streams chunks offset finish state)
    (inside : finish ≤ chunks.flatten.length) (unfinished : state.position < finish)
    (idle : state.reading = none)
    (ready : state.next.isSome ∨ state.guesses = [] ∧ state.buffered = []) :
    Streams chunks offset finish (state.choose finish) ∧
      (state.choose finish).remaining finish + 1 ≤ state.remaining finish := by
  have asks (gap : ∀ slot ∈ state.slots chunks, state.position < slot.chunk.1) :
      Streams chunks offset finish { state with reading := some ⟨state.position, .looking⟩ } ∧
        { state with reading := some ⟨state.position, .looking⟩ }.remaining finish + 1 ≤
          state.remaining finish := by
    have found := pieceAt_chunkOf (lt_of_lt_of_le unfinished inside)
    constructor
    · exact
        { streams with
          reading := by simp [ReadTask.Holds]
          gap := fun _ => unfinished
          itinerary := by
            have asked := streams.itinerary.ask found unfinished gap
            simpa [ReadAhead.slots, idle, ReadTask.slot, ReadStage.fresh] using asked }
    · simp [ReadAhead.remaining, idle, ReadStage.left]
  rw [ReadAhead.choose]
  split
  · next chunk next =>
    have slots : state.slots chunks =
        ⟨chunk, false⟩ :: { state with next := none, reading := none }.slots chunks := by
      simp [ReadAhead.slots, idle, next]
    split
    · next starts =>
      have emitted := streams.emit unfinished starts slots
      have same : { state with next := none } = { state with next := none, reading := none } := by
        rw [idle]
      rw [same]
      refine ⟨emitted.1, (Nat.add_le_add_left (by decide) _).trans (emitted.2.trans ?_)⟩
      simp [ReadAhead.remaining, idle, next]
    · next late =>
      refine asks fun slot member => ?_
      have itinerary := streams.itinerary
      rw [slots] at member itinerary
      rcases List.mem_cons.mp member with rfl | inRest
      · exact Nat.lt_of_not_le late
      · have order := (List.pairwise_cons.mp itinerary.ordered).1 slot inRest
        simp only [Slot.finish] at order
        omega
  · next next =>
    obtain ⟨guesses, buffered⟩ := ready.resolve_left (by simp [next])
    exact asks (by simp [ReadAhead.slots, idle, next, guesses, buffered])

section Actions

variable {state after : ReadAhead}

/-- A guess is started: its slot goes from the guesses to the tasks. -/
theorem Streams.launch (streams : Streams chunks offset finish state)
    (taken : state.step source width finish .launch = some after) :
    Streams chunks offset finish after ∧
      after.remaining finish + 1 ≤ state.remaining finish := by
  simp only [ReadAhead.step] at taken
  split at taken
  · cases taken
  · next position rest guesses =>
    split at taken
    · cases taken
      have below := streams.guesses
      rw [guesses] at below
      obtain ⟨belowHead, belowRest⟩ := List.forall_mem_cons.mp below
      constructor
      · exact
          { streams with
            buffered := by
              refine List.forall_mem_append.mpr ⟨streams.buffered, ?_⟩
              exact List.forall_mem_singleton.mpr ⟨trivial, belowHead⟩
            guesses := belowRest
            itinerary := by
              have itinerary := streams.itinerary
              simpa [ReadAhead.slots, guesses, ReadTask.slot, ReadStage.fresh] using itinerary }
      · simp only [ReadAhead.remaining, guesses, List.map_append, List.sum_append,
          List.map_singleton, List.sum_singleton, ReadStage.left, List.length_cons]
        omega
    · cases taken

/-- A task that was started for a guess takes one wait. -/
theorem Streams.advance (serves : Serves source chunks) (inside : finish ≤ chunks.flatten.length)
    (word : finish < wordBound) {place : Nat} (streams : Streams chunks offset finish state)
    (taken : state.step source width finish (.advance place) = some after) :
    Streams chunks offset finish after ∧
      after.remaining finish + 1 ≤ state.remaining finish := by
  simp only [ReadAhead.step, Option.bind_eq_bind, Option.bind_eq_some_iff] at taken
  obtain ⟨task, found, ⟨cache, other⟩, advanced, taken⟩ := taken
  cases taken
  obtain ⟨here, rfl⟩ := List.getElem?_eq_some_iff.mp found
  obtain ⟨front, back, before, _, set⟩ := @List.exists_of_set _ _ other _ here
  have taskHolds := streams.buffered _ (List.getElem_mem here)
  obtain ⟨cached, holds, same, less, change⟩ := ReadTask.advance_cases serves streams.cached
    taskHolds.1 (lt_of_lt_of_le taskHolds.2 inside) (taskHolds.2.trans word) advanced
  have old := streams.buffered
  rw [before] at old
  obtain ⟨oldFront, oldBack⟩ := List.forall_mem_append.mp old
  constructor
  · exact
      { streams with
        cached := cached
        buffered := by
          rw [set]
          exact List.forall_mem_append.mpr ⟨oldFront,
            List.forall_mem_cons.mpr ⟨⟨holds, same ▸ taskHolds.2⟩, fun task member =>
              oldBack task (List.mem_cons_of_mem _ member)⟩⟩
        itinerary := by
          have itinerary := streams.itinerary
          rw [ReadAhead.slots, before, List.map_append, List.map_cons] at itinerary
          rw [ReadAhead.slots, set, List.map_append, List.map_cons]
          simp only [List.append_assoc, List.cons_append] at itinerary ⊢
          rw [← List.append_assoc, ← List.append_assoc] at itinerary ⊢
          exact itinerary.advance same change }
  · simp only [ReadAhead.remaining, set]
    rw [before]
    simp only [List.map_append, List.map_cons, List.sum_append, List.sum_cons]
    omega

/-- The task at the position of the stream takes one wait. -/
theorem Streams.advanceReading (serves : Serves source chunks)
    (inside : finish ≤ chunks.flatten.length) (word : finish < wordBound)
    (streams : Streams chunks offset finish state)
    (taken : state.step source width finish .advanceReading = some after) :
    Streams chunks offset finish after ∧
      after.remaining finish + 1 ≤ state.remaining finish := by
  simp only [ReadAhead.step, Option.bind_eq_bind, Option.bind_eq_some_iff] at taken
  obtain ⟨task, found, ⟨cache, other⟩, advanced, taken⟩ := taken
  cases taken
  have taskHolds := streams.reading task found
  have unfinished := streams.gap (by rw [found]; rfl)
  have below : task.position < finish := by omega
  obtain ⟨cached, holds, same, less, change⟩ := ReadTask.advance_cases serves streams.cached
    taskHolds.1 (lt_of_lt_of_le below inside) (below.trans word) advanced
  constructor
  · exact
      { streams with
        cached := cached
        reading := by simp [holds, same, taskHolds.2]
        gap := fun _ => unfinished
        itinerary := by
          have itinerary := streams.itinerary
          rw [ReadAhead.slots, found] at itinerary
          exact @Itinerary.advance _ _ _ [] _ _ _ _ _ itinerary same change }
  · simp only [ReadAhead.remaining, found, Option.elim_some]
    omega

/-- The chunk of the first task comes. -/
theorem Streams.receive (streams : Streams chunks offset finish state)
    (taken : state.step source width finish .receive = some after) :
    Streams chunks offset finish after ∧
      after.remaining finish + 1 ≤ state.remaining finish := by
  simp only [ReadAhead.step] at taken
  split at taken
  · next position result rest buffered =>
    split at taken
    · next polls =>
      have old := streams.buffered
      rw [buffered] at old
      obtain ⟨⟨headHolds, _⟩, restHolds⟩ := List.forall_mem_cons.mp old
      obtain ⟨_, _, idle⟩ := ReadAhead.polls_iff.mp polls
      cases result with
      | ok chunk =>
          cases taken
          constructor
          · exact
              { streams with
                buffered := restHolds
                itinerary := by
                  have itinerary := streams.itinerary
                  have same : chunkOf chunks position = chunk := chunkOf_eq headHolds
                  simpa [ReadAhead.slots, buffered, idle, ReadTask.slot, same,
                    ReadStage.fresh] using itinerary }
          · simp only [ReadAhead.remaining, buffered, idle, List.map_cons, List.sum_cons,
              ReadStage.left, Option.toList_some, Option.toList_none, List.length_cons,
              List.length_nil]
            omega
      | error message => exact headHolds.elim
    · cases taken
  · cases taken

/-- The stream puts out the chunk that it asked for. -/
theorem Streams.collect (streams : Streams chunks offset finish state)
    (taken : state.step source width finish .collect = some after) :
    Streams chunks offset finish after ∧
      after.remaining finish + 1 ≤ state.remaining finish := by
  simp only [ReadAhead.step] at taken
  split at taken
  · next position chunk reading =>
    cases taken
    obtain ⟨holds, here⟩ := streams.reading _ reading
    have found : pieceAt chunks position = some chunk := holds
    have unfinished := streams.gap (by rw [reading]; rfl)
    have starts := (@holds_of_pieceAt _ chunks position chunk.1 chunk.2 found).1
    have slots : state.slots chunks =
        ⟨chunk, false⟩ :: { state with next := state.next, reading := none }.slots chunks := by
      simp [ReadAhead.slots, reading, ReadTask.slot, ReadStage.fresh, chunkOf_eq found]
    have emitted := streams.emit unfinished (by rwa [← here]) slots
    refine ⟨emitted.1, ?_⟩
    have cleared : { state with reading := none }.remaining finish =
        state.remaining finish + 4 := by
      simp [ReadAhead.remaining, reading, ReadStage.left, add_assoc]
    have fell := emitted.2
    rw [cleared] at fell
    omega
  · next position message reading =>
    exact (streams.reading _ reading).1.elim
  · cases taken

/-- A chunk that someone else fetches goes to the cache. -/
theorem Streams.elsewhere (serves : Serves source chunks) {position : Nat}
    (streams : Streams chunks offset finish state)
    (taken : state.step source width finish (.elsewhere position) = some after) :
    Streams chunks offset finish after ∧
      after.remaining finish = state.remaining finish := by
  simp only [ReadAhead.step] at taken
  split at taken
  · next known =>
    split at taken
    · next chunk fetched =>
      cases taken
      have found := ChunkSource.pieceAt_of_fetch serves (serves.size ▸ known) fetched
      exact ⟨{ streams with cached := streams.cached.push ⟨position, found⟩ }, rfl⟩
    · cases taken
  · cases taken

/-- A step of a stream keeps what streams keep, and its own steps do some of what is left. -/
theorem Streams.step (serves : Serves source chunks) (inside : finish ≤ chunks.flatten.length)
    (word : finish < wordBound) {action : ReadAction}
    (streams : Streams chunks offset finish state)
    (taken : state.step source width finish action = some after) :
    Streams chunks offset finish after ∧
      after.remaining finish + (!action.isElsewhere).toNat ≤ state.remaining finish := by
  cases action with
  | launch => exact streams.launch taken
  | advance place => exact streams.advance serves inside word taken
  | advanceReading => exact streams.advanceReading serves inside word taken
  | receive => exact streams.receive taken
  | select =>
      simp only [ReadAhead.step] at taken
      split at taken
      · next ready =>
        cases taken
        obtain ⟨_, notEnd, idle, cause⟩ := ready
        exact streams.choose inside (lt_of_le_of_ne streams.bounds.2 notEnd) (by simpa using idle)
          cause
      · cases taken
  | collect => exact streams.collect taken
  | elsewhere position =>
      obtain ⟨kept, same⟩ := streams.elsewhere serves taken
      exact ⟨kept, same.le⟩

end Actions

/-- As long as the range has not been put out, the stream or one of its tasks can go on. -/
theorem Streams.enabled (serves : Serves source chunks) (inside : finish ≤ chunks.flatten.length)
    (word : finish < wordBound) (positive : 0 < width) {state : ReadAhead}
    (streams : Streams chunks offset finish state) (unfinished : state.position ≠ finish) :
    ∃ action, action.isElsewhere = false ∧ (state.step source width finish action).isSome := by
  have goesOn {task : ReadTask} (holds : task.Holds chunks) (below : task.position < finish)
      (waits : task.stage.left ≠ 1) : ∃ next, task.advance source state.cache = some next := by
    obtain ⟨position, stage⟩ := task
    cases stage with
    | looking => cases found : state.cache.find position <;> simp [ReadTask.advance, found]
    | fetching =>
        obtain ⟨hash, fetched⟩ := ChunkSource.fetch_of_pieceAt serves
          (pieceAt_chunkOf (lt_of_lt_of_le below inside)) (lt_of_lt_of_le below inside)
          (below.trans word)
        exact ⟨_, by rw [ReadTask.advance, fetched]⟩
    | storing chunk => exact ⟨_, rfl⟩
    | done result => exact (waits rfl).elim
  cases reading : state.reading with
  | some task =>
      obtain ⟨holds, here⟩ := streams.reading task reading
      have below : task.position < finish := here ▸ streams.gap (by rw [reading]; rfl)
      by_cases waits : task.stage.left = 1
      · refine ⟨.collect, rfl, ?_⟩
        obtain ⟨position, stage⟩ := task
        cases stage with
        | done result => cases result <;> simp [ReadAhead.step, reading]
        | _ => cases waits
      · obtain ⟨next, advanced⟩ := goesOn holds below waits
        exact ⟨.advanceReading, rfl, by simp [ReadAhead.step, reading, advanced]⟩
  | none =>
      cases next : state.next with
      | some chunk =>
          exact ⟨.select, rfl, by simp [ReadAhead.step, streams.failed, unfinished, reading, next]⟩
      | none =>
          have polls : state.polls finish :=
            ReadAhead.polls_iff.mpr ⟨streams.failed, unfinished, reading, next⟩
          cases buffered : state.buffered with
          | cons task rest =>
              obtain ⟨holds, below⟩ := streams.buffered task (by simp [buffered])
              by_cases waits : task.stage.left = 1
              · refine ⟨.receive, rfl, ?_⟩
                obtain ⟨position, stage⟩ := task
                cases stage with
                | done result => cases result <;> simp [ReadAhead.step, buffered, polls]
                | _ => cases waits
              · obtain ⟨next, advanced⟩ := goesOn holds below waits
                exact ⟨.advance 0, rfl, by simp [ReadAhead.step, buffered, advanced]⟩
          | nil =>
              cases guesses : state.guesses with
              | nil =>
                  exact ⟨.select, rfl, by
                    simp [ReadAhead.step, streams.failed, unfinished, reading, guesses, buffered]⟩
              | cons position rest =>
                  exact ⟨.launch, rfl, by
                    simp [ReadAhead.step, guesses, polls, buffered, positive]⟩

/-- A stream starts with a slot for each guess, where the guesses lie a full chunk apart. -/
theorem Streams.start (bounded : ∀ chunk ∈ chunks, chunk.length ≤ maxChunkSize)
    {cached : List CachedChunk} (valid : ∀ chunk ∈ cached, chunk.Holds chunks)
    (ordered : offset ≤ finish) (inside : finish ≤ chunks.flatten.length) {guesses : List Nat}
    (apart : guesses.Pairwise fun one other => one + maxChunkSize ≤ other)
    (range : ∀ position ∈ guesses, offset ≤ position ∧ position < finish) :
    Streams chunks offset finish ⟨⟨cached, []⟩, guesses, [], none, none, offset, [], none⟩ where
  failed := rfl
  cached := valid
  buffered := by simp
  guesses := fun position member => (range position member).2
  reading := by simp
  gap := by simp
  bounds := ⟨le_rfl, ordered⟩
  output := by simp
  itinerary := by
    have found (position : Nat) (member : position ∈ guesses) :
        pieceAt chunks position = some (chunkOf chunks position) :=
      pieceAt_chunkOf (lt_of_lt_of_le (range position member).2 inside)
    refine ⟨List.nodup_nil, ?_, ?_, ?_, by simp, by simp⟩
    · refine List.pairwise_map.mpr (apart.imp_of_mem ?_)
      intro first second firstMember secondMember apart
      exact finish_le_of_apart bounded (found first firstMember) (found second secondMember) apart
    · refine List.forall_mem_map.mpr fun position member => ?_
      exact ⟨position, found position member⟩
    · refine List.forall_mem_map.mpr fun position member => ?_
      have range := range position member
      have holds := holds_of_chunkOf (found position member)
      simp only [Slot.finish]
      omega

theorem ChunkSource.chunkAt_of_pieceAt (serves : Serves source chunks) (cached : cache.Holds chunks)
    {position : Nat} {chunk : Nat × Bytes} (found : pieceAt chunks position = some chunk)
    (inside : position < chunks.flatten.length) (word : position < wordBound) :
    ∃ after, source.chunkAt cache position = .ok (chunk, after) ∧ after.Holds chunks ∧
      (after.fetched = cache.fetched ∨ after.fetched = cache.fetched ++ [chunk.1]) := by
  rw [chunkAt]
  cases hit : cache.find position with
  | some held =>
      obtain rfl := Option.some.inj ((cached.find hit).symm.trans found)
      exact ⟨_, rfl, cached.push ⟨position, found⟩, .inl rfl⟩
  | none =>
      obtain ⟨hash, fetched⟩ := fetch_of_pieceAt serves found inside word
      refine ⟨(cache.fetch ⟨chunk.1, chunk.2, hash⟩).push ⟨chunk.1, chunk.2, hash⟩, ?_,
        ChunkCache.Holds.push cached ⟨position, found⟩, .inr rfl⟩
      simp only [fetched]
      rfl

/-- One round of the loop of `read_at`. -/
theorem ChunkSource.readLoop_of_progress {position : Nat} {chunk : Nat × Bytes} {after : ChunkCache}
    (unfinished : position < finish) (read : source.chunkAt cache position = .ok (chunk, after))
    (progress : 0 < min (finish - position) (chunk.2.length - (position - chunk.1))) :
    source.readLoop cache position finish =
      (fun rest : Bytes × ChunkCache => (within chunk position finish ++ rest.1, rest.2)) <$>
        source.readLoop after
          (position + min (finish - position) (chunk.2.length - (position - chunk.1))) finish := by
  rw [readLoop, if_pos unfinished, read, Checked.ok_bind]
  dsimp only
  rw [dif_pos progress]
  cases source.readLoop after _ finish <;> rfl

/-- The loop of `read_at` reads what is left of the range. -/
theorem ChunkSource.readLoop_eq (serves : Serves source chunks)
    (inside : finish ≤ chunks.flatten.length) (word : finish < wordBound) {position : Nat}
    (ordered : position ≤ finish) (cached : cache.Holds chunks)
    (itinerary : Itinerary chunks finish position cache.fetched []) :
    ∃ after, source.readLoop cache position finish =
        .ok ((chunks.flatten.drop position).take (finish - position), after) ∧
      after.fetched.Nodup := by
  induction left : finish - position using Nat.strong_induction_on generalizing cache position with
  | _ length induction =>
    subst left
    by_cases unfinished : position < finish
    · have found := pieceAt_chunkOf (lt_of_lt_of_le unfinished inside)
      have holds := holds_of_chunkOf found
      obtain ⟨next, read, nextCached, change⟩ := chunkAt_of_pieceAt serves cached found
        (lt_of_lt_of_le unfinished inside) (unfinished.trans word)
      have asked := itinerary.ask found unfinished (by simp)
      have answered : ∃ fresh, Itinerary chunks finish position next.fetched
          [⟨chunkOf chunks position, fresh⟩] := by
        rcases change with same | more
        · exact ⟨true, same ▸ asked⟩
        · exact ⟨false, more ▸ @Itinerary.fetch _ _ _ _ [] _ _ asked rfl⟩
      obtain ⟨fresh, answered⟩ := answered
      have progress : 0 < min (finish - position)
          ((chunkOf chunks position).2.length - (position - (chunkOf chunks position).1)) := by
        omega
      have passed := answered.pass (Nat.le_add_right position (min (finish - position)
        ((chunkOf chunks position).2.length - (position - (chunkOf chunks position).1))))
        (by simp only [Slot.finish]; omega) (by simp only [Slot.finish]; omega)
      obtain ⟨after, rest, nodup⟩ := induction _ (by omega) (by omega) nextCached passed rfl
      refine ⟨after, ?_, nodup⟩
      have piece := @take_append_of_pieceAt _ chunks position position finish
        (chunkOf chunks position).1 (chunkOf chunks position).2 found le_rfl unfinished.le
      rw [Nat.sub_self, List.take_zero, List.nil_append, Nat.add_sub_cancel_left] at piece
      rw [readLoop_of_progress unfinished read progress, rest, within, piece]
      have split : finish - position = min (finish - position)
            ((chunkOf chunks position).2.length - (position - (chunkOf chunks position).1)) +
          (finish - (position + min (finish - position)
            ((chunkOf chunks position).2.length - (position - (chunkOf chunks position).1)))) := by
        omega
      conv_rhs => rw [split, List.take_add, List.drop_drop]
      rfl
    · refine ⟨cache, ?_, itinerary.nodup⟩
      rw [readLoop, if_neg unfinished, Nat.sub_eq_zero_of_le (Nat.le_of_not_lt unfinished),
        List.take_zero]
      rfl

/-- However the tasks take turns, a stream that reads ahead does not fail and fetches no chunk
twice; it can go on until it has put out the bytes of its range, which `read_at` reads too, and it
takes no more than a fixed number of steps. -/
theorem read_ahead_eq_slice (serves : Serves source chunks) {cached : List CachedChunk}
    (valid : ∀ chunk ∈ cached, chunk.Holds chunks) {offset length width : Nat}
    (inside : offset + length ≤ chunks.flatten.length) (word : offset + length < wordBound)
    (positive : 0 < width) :
    ∃ start after, source.readAhead cached offset length = .ok start ∧
      source.readAt ⟨cached, []⟩ offset length =
        .ok ((chunks.flatten.drop offset).take length, after) ∧
      after.fetched.Nodup ∧
      ∀ actions state,
        Run (fun before action next => before.step source width (offset + length) action = some next)
          start actions state →
        state.failed = none ∧ state.cache.fetched.Nodup ∧
          actions.countP (fun action => !action.isElsewhere) ≤ start.remaining (offset + length) ∧
          (state.position = offset + length →
            state.output.flatten = (chunks.flatten.drop offset).take length) ∧
          (state.position ≠ offset + length → ∃ action, action.isElsewhere = false ∧
            (state.step source width (offset + length) action).isSome) := by
  have range : source.rangeEnd offset length = .ok (offset + length) := by
    have fits : offset + length ≤ source.geometry.dataSize := serves.size ▸ inside
    simp [ChunkSource.rangeEnd, Word.add_of_lt word, Checked.context, Checked.ensure_of fits, pure,
      Except.pure]
  have start := Streams.start serves.bounded valid (Nat.le_add_right offset length) inside
    (apart_of_strides maxChunkSize offset (offset + length))
    fun position member => mem_strides maxChunkSize_pos member
  have itinerary : Itinerary chunks (offset + length) offset (ChunkCache.mk cached []).fetched [] :=
    ⟨List.nodup_nil, .nil, by simp, by simp, by simp, by simp⟩
  have holds : (ChunkCache.mk cached []).Holds chunks := valid
  obtain ⟨after, read, nodup⟩ := ChunkSource.readLoop_eq serves inside word
    (Nat.le_add_right offset length) holds itinerary
  refine ⟨_, after, by rw [ChunkSource.readAhead, range]; rfl, ?_, nodup, ?_⟩
  · rw [ChunkSource.readAt, range, Checked.ok_bind, read, Nat.add_sub_cancel_left]
  · intro actions state run
    have keeps (before : ReadAhead) (action : ReadAction) (next : ReadAhead)
        (holds : Streams chunks offset (offset + length) before)
        (taken : before.step source width (offset + length) action = some next) :=
      holds.step serves inside word taken
    have streams : Streams chunks offset (offset + length) state :=
      run.invariant
        (fun before action next holds taken => (keeps before action next holds taken).1) start
    have steps := run.countP_le
      (fun before action next holds taken => (keeps before action next holds taken).1)
      (fun before action next holds taken => (keeps before action next holds taken).2) start
    refine ⟨streams.failed, streams.itinerary.nodup, le_of_add_le_right steps, fun ended => ?_,
      streams.enabled serves inside word positive⟩
    rw [streams.output, ended, Nat.add_sub_cancel_left]

/-- A gateway that answers for the chunks of a transaction. -/
def sampleChunkSource (chunks : List Bytes) : ChunkSource where
  geometry :=
    ⟨⟨List.replicate 32 1, rfl⟩, ⟨List.replicate 32 2, rfl⟩, 9, 3, 4, 8, chunks.flatten.length⟩
  fetchVerifiedChunk absolute _ :=
    .ok ((pieceAt chunks (absolute - 4)).map fun found =>
      { bytes := found.2
        transaction := ⟨⟨List.replicate 32 2, rfl⟩, 3, 8, chunks.flatten.length⟩
        data := ⟨found.1, found.1 + found.2.length, ⟨List.replicate 32 3, rfl⟩⟩
        relativeOffset := absolute - 4
        firstOffset := 4 })

theorem sampleChunkSource_serves {chunks : List Bytes}
    (bounded : ∀ chunk ∈ chunks, chunk.length ≤ maxChunkSize)
    (fits : 4 + chunks.flatten.length ≤ 2 ^ 128) : Serves (sampleChunkSource chunks) chunks where
  bounded := bounded
  size := rfl
  fits := fits
  answers position start chunk found := by
    refine ⟨⟨chunk, ⟨⟨List.replicate 32 2, rfl⟩, 3, 8, chunks.flatten.length⟩,
      ⟨start, start + chunk.length, ⟨List.replicate 32 3, rfl⟩⟩, position, 4⟩, ?_, ?_, rfl, rfl⟩
    · simp [sampleChunkSource, found]
    · simp [checkChunkGeometry, sampleChunkSource]

theorem read_ahead_eq_slice_sample :
    ∃ start after,
      (sampleChunkSource [[1, 2, 3], [4, 5]]).readAhead [⟨3, [4, 5], ⟨List.replicate 32 3, rfl⟩⟩] 1 3 =
        .ok start ∧
      (sampleChunkSource [[1, 2, 3], [4, 5]]).readAt
        ⟨[⟨3, [4, 5], ⟨List.replicate 32 3, rfl⟩⟩], []⟩ 1 3 = .ok ([2, 3, 4], after) ∧
      after.fetched.Nodup ∧
      ∀ actions state,
        Run (fun before action next =>
          before.step (sampleChunkSource [[1, 2, 3], [4, 5]]) 7 4 action = some next)
          start actions state →
        state.failed = none ∧ state.cache.fetched.Nodup ∧
          actions.countP (fun action => !action.isElsewhere) ≤ start.remaining 4 ∧
          (state.position = 4 → state.output.flatten = [2, 3, 4]) ∧
          (state.position ≠ 4 → ∃ action, action.isElsewhere = false ∧
            (state.step (sampleChunkSource [[1, 2, 3], [4, 5]]) 7 4 action).isSome) :=
  @read_ahead_eq_slice _ [[1, 2, 3], [4, 5]] (sampleChunkSource_serves (by decide) (by decide)) _
    (by
      intro chunk member
      obtain rfl := List.mem_singleton.mp member
      exact ⟨3, rfl⟩) 1 3 7 (by decide) (by decide) (by decide)

end

end ArIoGateway
