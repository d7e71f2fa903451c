import ArIoGateway.Foundation.Batches
import ArIoGateway.Foundation.Octets
import ArIoGateway.Foundation.Runs
import Mathlib.Algebra.Order.BigOperators.Group.List

/-!
# The budget of spool files

A content that is too large for memory is written to a file, and its bytes are reserved before.  The
reservation goes from the download that was admitted to the writer, from the writer to the task that
works on the file and back, and at last to the content.  Whoever drops it gives its bytes back.
-/

namespace ArIoGateway

open Octets

def ioChunkSize : Nat := 64 * 1024

/-- A file with the bytes that are reserved for it. -/
structure SpoolFile where
  reservation : Nat
  bytes : Bytes
deriving DecidableEq

inductive WriteStorage where
  | memory (bytes : Bytes)
  | file (slot : Option SpoolFile)
deriving DecidableEq

/-- `ContentWriter`, with what its hash has taken in. -/
structure ContentWriter where
  storage : WriteStorage
  expectedLen : Nat
  written : Nat
  hashed : Bytes
deriving DecidableEq

def SpoolFile.append (file : SpoolFile) (chunk : Bytes) : SpoolFile :=
  { file with bytes := file.bytes ++ chunk }

/-- What a writer is behind a chunk that went to its storage. -/
def ContentWriter.advance (writer : ContentWriter) (storage : WriteStorage) (chunk : Bytes) :
    ContentWriter where
  storage
  expectedLen := writer.expectedLen
  written := writer.written + chunk.length
  hashed := writer.hashed ++ chunk

/-- Who has a reservation, or had one: a download that was admitted, a writer that waits for its
file, one that is idle, at its next chunk, or waits for a task that has its file, a task that nobody
waits for, and a content with the number of its views. -/
inductive SpoolOwner where
  | credit (bytes : Nat)
  | opening (expectedLen reservation : Nat)
  | writer (writer : ContentWriter)
  | writing (writer : ContentWriter) (rest : List Bytes)
  | flushing (writer : ContentWriter) (file : SpoolFile) (chunk : Bytes) (rest : List Bytes)
  | task (reservation : Nat)
  | content (reservation : Option Nat) (bytes : Bytes) (views : Nat)
  | gone
deriving DecidableEq

def WriteStorage.reserved : WriteStorage → Nat
  | .file (some spooled) => spooled.reservation
  | _ => 0

/-- The bytes that an owner has reserved. -/
def SpoolOwner.reserved : SpoolOwner → Nat
  | credit bytes => bytes
  | opening _ reservation => reservation
  | writer own => own.storage.reserved
  | writing own _ => own.storage.reserved
  | flushing own file _ _ => own.storage.reserved + file.reservation
  | task reservation => reservation
  | content reservation _ _ => reservation.getD 0
  | gone => 0

/-- `SpoolBudget` with all that was ever reserved from it. -/
structure Spool where
  maxBytes : Nat
  usedBytes : Nat
  owners : List SpoolOwner
deriving DecidableEq

/-- What a download finds in its own slot: it was not scheduled, it has the credit at a place or
none, or one of another budget. -/
inductive SpoolSlot where
  | unscheduled
  | scheduled (credit : Option Nat)
  | foreign
deriving DecidableEq

/-- What happens, in any order.  The tasks that open and write files may fail, and every future may
be dropped while it waits. -/
inductive SpoolAction where
  | reserve (bytes : Nat)
  | create (expectedLen memoryLimit : Nat) (slot : SpoolSlot)
  | created (place : Nat) (failure : Option String)
  | write (place : Nat) (bytes : Bytes)
  | chunk (place : Nat)
  | flushed (place : Nat) (failure : Option String)
  | abandon (place : Nat)
  | finish (place : Nat)
  | share (place : Nat)
  | drop (place : Nat)
  | ended (place : Nat)
deriving DecidableEq

namespace Spool

def start (maxBytes : Nat) : Spool := ⟨maxBytes, 0, []⟩

/-- `SpoolBudget::reserve`, one update of the counter. -/
def reserve (state : Spool) (bytes : Nat) (owner : SpoolOwner) : Spool × Option String :=
  if state.usedBytes + bytes ≤ state.maxBytes then
    ({ state with
        usedBytes := state.usedBytes + bytes
        owners := state.owners ++ [owner] }, none)
  else (state, some "content spool budget exhausted")

/-- An owner becomes another one and drops the reservation of so many bytes. -/
def release (state : Spool) (place : Nat) (bytes : Nat) (owner : SpoolOwner) : Spool :=
  { state with
    usedBytes := state.usedBytes - bytes
    owners := state.owners.set place owner }

/-- An owner becomes another one. -/
def set (state : Spool) (place : Nat) (owner : SpoolOwner) : Spool :=
  { state with owners := state.owners.set place owner }

def push (state : Spool) (owner : SpoolOwner) : Spool :=
  { state with owners := state.owners ++ [owner] }

/-- `ContentWriter::new` up to the task that opens the file. -/
def create (state : Spool) (expectedLen memoryLimit : Nat) (slot : SpoolSlot) :
    Option (Spool × Option String) :=
  if expectedLen ≤ memoryLimit then
    some (state.push (.writer ⟨.memory [], expectedLen, 0, []⟩), none)
  else
    match slot with
    | .unscheduled => some (state.reserve expectedLen (.opening expectedLen expectedLen))
    | .scheduled none => some (state, some "scheduled content lacks a spool reservation")
    | .foreign => some (state, some "content does not match its spool reservation")
    | .scheduled (some place) =>
        match state.owners[place]? with
        | some (.credit bytes) =>
            if bytes = expectedLen then some (state.set place (.opening expectedLen bytes), none)
            else
              some (state.release place bytes .gone,
                some "content does not match its spool reservation")
        | _ => none

/-- The next chunk of `ContentWriter::write`.  A file goes to a task with it. -/
def chunk (state : Spool) (place : Nat) (writer : ContentWriter) :
    List Bytes → Spool × Option String
  | [] => (state.set place (.writer writer), none)
  | chunk :: rest =>
      match writer.storage with
      | .memory bytes =>
          (state.set place (.writing (writer.advance (.memory (bytes ++ chunk)) chunk) rest), none)
      | .file (some file) =>
          (state.set place (.flushing { writer with storage := .file none } file chunk rest), none)
      | .file none =>
          (state.set place (.writer writer), some "content writer unavailable")

/-- `ContentWriter::finish`, which takes the writer. -/
def finish (state : Spool) (place : Nat) (writer : ContentWriter) : Spool × Option String :=
  if writer.written = writer.expectedLen then
    match writer.storage with
    | .memory bytes => (state.set place (.content none bytes 1), none)
    | .file (some file) => (state.set place (.content (some file.reservation) file.bytes 1), none)
    | .file none => (state.set place .gone, some "content writer unavailable")
  else
    (state.release place writer.storage.reserved .gone, some "content is shorter than expected")

/-- The owner at a place is dropped.  A task that has its file goes on until it ends, and a content
is dropped with its last view. -/
def drop (state : Spool) (place : Nat) : SpoolOwner → Option Spool
  | .credit bytes => some (state.release place bytes .gone)
  | .opening _ reservation => some (state.set place (.task reservation))
  | .writer writer | .writing writer _ =>
      some (state.release place writer.storage.reserved .gone)
  | .flushing _ file _ _ => some (state.set place (.task file.reservation))
  | .content reservation bytes (views + 2) =>
      some (state.set place (.content reservation bytes (views + 1)))
  | .content reservation _ _ => some (state.release place (reservation.getD 0) .gone)
  | .task _ | .gone => none

/-- One step, with the failure that its caller sees. -/
def step (state : Spool) : SpoolAction → Option (Spool × Option String)
  | .reserve bytes => some (state.reserve bytes (.credit bytes))
  | .create expectedLen memoryLimit slot => state.create expectedLen memoryLimit slot
  | .created place failure =>
      match state.owners[place]?, failure with
      | some (.opening expectedLen reservation), none =>
          some (state.set place (.writer ⟨.file (some ⟨reservation, []⟩), expectedLen, 0, []⟩),
            none)
      | some (.opening _ reservation), some message =>
          some (state.release place reservation .gone, some message)
      | _, _ => none
  | .write place bytes =>
      match state.owners[place]? with
      | some (.writer writer) =>
          if bytes.length ≤ writer.expectedLen - writer.written then
            some (state.set place (.writing writer (Batches.chunks ioChunkSize bytes)), none)
          else some (state, some "content exceeds expected length")
      | _ => none
  | .chunk place =>
      match state.owners[place]? with
      | some (.writing writer rest) => some (state.chunk place writer rest)
      | _ => none
  | .flushed place failure =>
      match state.owners[place]?, failure with
      | some (.flushing writer file chunk rest), none =>
          some (state.set place
            (.writing (writer.advance (.file (some (file.append chunk))) chunk) rest), none)
      | some (.flushing writer file _ _), some message =>
          some (state.release place file.reservation (.writer writer), some message)
      | _, _ => none
  | .abandon place =>
      match state.owners[place]? with
      | some (.writing writer _) => some (state.set place (.writer writer), none)
      | some (.flushing writer file _ _) =>
          some ((state.set place (.writer writer)).push (.task file.reservation), none)
      | _ => none
  | .finish place =>
      match state.owners[place]? with
      | some (.writer writer) => some (state.finish place writer)
      | _ => none
  | .share place =>
      match state.owners[place]? with
      | some (.content reservation bytes views) =>
          some (state.set place (.content reservation bytes (views + 1)), none)
      | _ => none
  | .drop place => do
      let after ← state.drop place (← state.owners[place]?)
      some (after, none)
  | .ended place =>
      match state.owners[place]? with
      | some (.task reservation) => some (state.release place reservation .gone, none)
      | _ => none

/-- The state behind a step. -/
def next (state : Spool) (action : SpoolAction) : Option Spool := (state.step action).map Prod.fst

/-- What all owners together have reserved. -/
def reserved (state : Spool) : Nat := (state.owners.map SpoolOwner.reserved).sum

end Spool

/-- The place that an action is about. -/
def SpoolAction.place : SpoolAction → Option Nat
  | reserve _ => none
  | create _ _ (.scheduled credit) => credit
  | create .. => none
  | created owner _ | write owner _ | chunk owner | flushed owner _ | abandon owner
  | finish owner | share owner | drop owner | ended owner => some owner

/-- A writer has stored what its hash has taken in, and its file has the bytes that it expects. -/
structure ContentWriter.Sound (writer : ContentWriter) : Prop where
  fits : writer.written ≤ writer.expectedLen
  hashed : writer.hashed.length = writer.written
  memory : ∀ bytes, writer.storage = .memory bytes → bytes = writer.hashed
  file : ∀ file, writer.storage = .file (some file) →
    file.bytes = writer.hashed ∧ file.reservation = writer.expectedLen

def SpoolOwner.Sound : SpoolOwner → Prop
  | opening expectedLen reservation => reservation = expectedLen
  | writer own => own.Sound
  | writing own rest => own.Sound ∧ own.written + rest.flatten.length ≤ own.expectedLen
  | flushing own file chunk rest =>
      own.Sound ∧ own.storage = .file none ∧ file.bytes = own.hashed ∧
        file.reservation = own.expectedLen ∧
        own.written + (chunk.length + rest.flatten.length) ≤ own.expectedLen
  | content reservation bytes views => 0 < views ∧ ∀ size ∈ reservation, size = bytes.length
  | credit _ | task _ | gone => True

/-- A writer that has nothing yet. -/
theorem sound_new {storage : WriteStorage} {expectedLen : Nat}
    (storageEmpty : storage = .memory [] ∨ storage = .file (some ⟨expectedLen, []⟩)) :
    ContentWriter.Sound ⟨storage, expectedLen, 0, []⟩ := by
  rcases storageEmpty with rfl | rfl
  · exact ⟨Nat.zero_le _, rfl, by rintro _ ⟨⟩; rfl, nofun⟩
  · exact ⟨Nat.zero_le _, rfl, nofun, by rintro _ ⟨⟩; exact ⟨rfl, rfl⟩⟩

/-- A writer whose file is with a task or gone. -/
theorem ContentWriter.Sound.without {writer : ContentWriter} (sound : writer.Sound) :
    ContentWriter.Sound { writer with storage := .file none } :=
  ⟨sound.fits, sound.hashed, nofun, nofun⟩

/-- A chunk goes to the storage and to the hash. -/
theorem ContentWriter.Sound.advance {writer : ContentWriter} (sound : writer.Sound)
    {storage : WriteStorage} {chunk : Bytes}
    (fits : writer.written + chunk.length ≤ writer.expectedLen)
    (memory : ∀ bytes, storage = .memory bytes → bytes = writer.hashed ++ chunk)
    (file : ∀ file, storage = .file (some file) →
      file.bytes = writer.hashed ++ chunk ∧ file.reservation = writer.expectedLen) :
    (writer.advance storage chunk).Sound := by
  refine ⟨fits, ?_, memory, file⟩
  rw [ContentWriter.advance, List.length_append, sound.hashed]

namespace Spool

attribute [local simp] step

/-- What a step may do at the place of its action: nothing, bring in an owner for bytes that are
reserved, replace an owner and release what the new one does not have, or part an owner. -/
inductive Effect (before : Spool) : Option Nat → Spool → Prop
  | same {place : Option Nat} : Effect before place before
  | added {place : Option Nat} {owner : SpoolOwner} (sound : owner.Sound)
      (room : before.usedBytes + owner.reserved ≤ before.maxBytes) :
      Effect before place
        { before with
          usedBytes := before.usedBytes + owner.reserved
          owners := before.owners ++ [owner] }
  | moved {place bytes : Nat} {old new : SpoolOwner} (found : before.owners[place]? = some old)
      (sound : new.Sound) (balance : new.reserved + bytes = old.reserved) :
      Effect before (some place) (before.release place bytes new)
  | parted {place : Nat} {old new other : SpoolOwner} (found : before.owners[place]? = some old)
      (sound : new.Sound) (otherSound : other.Sound)
      (balance : new.reserved + other.reserved = old.reserved) :
      Effect before (some place) ((before.set place new).push other)

/-- Every owner is in order, and the counter is the total of what they have reserved. -/
structure Accounts (maxBytes : Nat) (state : Spool) : Prop where
  limit : state.maxBytes = maxBytes
  total : state.usedBytes = state.reserved
  bound : state.usedBytes ≤ state.maxBytes
  sound : ∀ owner ∈ state.owners, owner.Sound

theorem accounts_start (maxBytes : Nat) : Accounts maxBytes (start maxBytes) :=
  ⟨rfl, rfl, Nat.zero_le _, by simp [start]⟩

theorem reserved_push (state : Spool) (owner : SpoolOwner) :
    (state.push owner).reserved = state.reserved + owner.reserved := by
  simp [reserved, push]

theorem reserved_set {state : Spool} {place : Nat} {old : SpoolOwner}
    (found : state.owners[place]? = some old) (new : SpoolOwner) :
    (state.set place new).reserved + old.reserved = state.reserved + new.reserved :=
  List.sum_map_set_add SpoolOwner.reserved found new

theorem reserved_le {state : Spool} {place : Nat} {owner : SpoolOwner}
    (found : state.owners[place]? = some owner) : owner.reserved ≤ state.reserved := by
  apply List.single_le_sum (fun _ _ => Nat.zero_le _)
  exact List.mem_map_of_mem (List.mem_of_getElem? found)

theorem Accounts.effect {maxBytes : Nat} {before after : Spool} {place : Option Nat}
    (accounts : Accounts maxBytes before) (effect : Effect before place after) :
    Accounts maxBytes after := by
  obtain ⟨limit, total, bound, sound⟩ := accounts
  cases effect with
  | same => exact ⟨limit, total, bound, sound⟩
  | @added _ owner ownerSound room =>
      refine ⟨limit, ?_, room, ?_⟩
      · have pushed := reserved_push before owner
        simp only [reserved, push] at pushed total ⊢
        omega
      · intro other member
        rcases List.mem_append.mp member with old | new
        · exact sound other old
        · rwa [List.mem_singleton.mp new]
  | @moved place bytes old new found newSound balance =>
      have replaced := reserved_set found new
      have least := reserved_le found
      refine ⟨limit, ?_, ?_, ?_⟩
      · simp only [reserved, set, release] at replaced least total ⊢
        omega
      · simp only [release]
        omega
      · intro other member
        rcases List.mem_or_eq_of_mem_set member with old | rfl
        · exact sound other old
        · exact newSound
  | @parted place old new other found newSound otherSound balance =>
      have replaced := reserved_set found new
      have pushed := reserved_push (before.set place new) other
      refine ⟨limit, ?_, bound, ?_⟩
      · rw [pushed]
        simp only [push, set] at replaced ⊢
        omega
      · intro owner member
        rcases List.mem_append.mp member with old | last
        · rcases List.mem_or_eq_of_mem_set old with old | rfl
          · exact sound owner old
          · exact newSound
        · rwa [List.mem_singleton.mp last]

/-- An action leaves the owners at other places alone. -/
theorem Effect.other {before after : Spool} {touched : Option Nat} {place : Nat}
    {owner : SpoolOwner} (effect : Effect before touched after) (other : touched ≠ some place)
    (found : before.owners[place]? = some owner) : after.owners[place]? = some owner := by
  have inside : place < before.owners.length := (List.getElem?_eq_some_iff.mp found).1
  cases effect with
  | same => exact found
  | added => rwa [List.getElem?_append_left inside]
  | @moved touched =>
      have apart : touched ≠ place := fun same => other (congrArg some same)
      rwa [release, List.getElem?_set_ne apart]
  | @parted touched =>
      have apart : touched ≠ place := fun same => other (congrArg some same)
      rw [push, set, List.getElem?_append_left (by rwa [List.length_set]),
        List.getElem?_set_ne apart]
      exact found

theorem reserve_effect {before after : Spool} {bytes : Nat} {owner : SpoolOwner}
    {place : Option Nat} {outcome : Option String} (sound : owner.Sound)
    (weight : owner.reserved = bytes) (same : before.reserve bytes owner = (after, outcome)) :
    Effect before place after := by
  unfold reserve at same
  split at same
  · next room =>
      cases same
      subst weight
      exact .added sound room
  · cases same
    exact .same

theorem kept_effect {before : Spool} {place : Nat} {old new : SpoolOwner}
    (found : before.owners[place]? = some old) (sound : new.Sound)
    (balance : new.reserved = old.reserved) : Effect before (some place) (before.set place new) :=
  @Effect.moved before place 0 old new found sound (by rw [Nat.add_zero, balance])

theorem create_effect {before after : Spool} {expectedLen memoryLimit : Nat} {slot : SpoolSlot}
    {outcome : Option String} (bound : before.usedBytes ≤ before.maxBytes)
    (taken : before.create expectedLen memoryLimit slot = some (after, outcome)) :
    Effect before (SpoolAction.create expectedLen memoryLimit slot).place after := by
  unfold create at taken
  split at taken
  · cases taken
    exact @Effect.added before _ (.writer ⟨.memory [], expectedLen, 0, []⟩) (sound_new (.inl rfl))
      bound
  · split at taken
    · exact reserve_effect (show SpoolOwner.Sound (.opening _ _) from rfl) rfl
        (Option.some.inj taken)
    · cases taken
      exact .same
    · cases taken
      exact .same
    · split at taken
      · next place _ bytes found =>
          split at taken
          · next same =>
              cases taken
              exact kept_effect found same rfl
          · cases taken
            exact .moved found trivial (Nat.zero_add _)
      · cases taken

theorem chunk_effect {before after : Spool} {place : Nat} {writer : ContentWriter}
    {rest : List Bytes} {outcome : Option String}
    (found : before.owners[place]? = some (.writing writer rest))
    (sound : (SpoolOwner.writing writer rest).Sound)
    (taken : before.chunk place writer rest = (after, outcome)) :
    Effect before (some place) after := by
  obtain ⟨own, fits⟩ := sound
  unfold chunk at taken
  split at taken
  · cases taken
    exact kept_effect found own rfl
  · next chunk rest =>
      rw [List.flatten_cons, List.length_append] at fits
      split at taken
      · next bytes memory =>
          cases taken
          apply kept_effect found
          · refine ⟨own.advance (by omega) ?_ nofun, ?_⟩
            · rintro _ ⟨⟩
              rw [own.memory bytes memory]
            · simp only [ContentWriter.advance]
              omega
          · simp [SpoolOwner.reserved, ContentWriter.advance, WriteStorage.reserved, memory]
      · next file stored =>
          cases taken
          obtain ⟨bytes, reservation⟩ := own.file file stored
          apply kept_effect found
          · exact ⟨own.without, rfl, bytes, reservation, fits⟩
          · simp [SpoolOwner.reserved, WriteStorage.reserved, stored]
      · cases taken
        exact kept_effect found own rfl

theorem finish_effect {before after : Spool} {place : Nat} {writer : ContentWriter}
    {outcome : Option String} (found : before.owners[place]? = some (.writer writer))
    (own : writer.Sound) (taken : before.finish place writer = (after, outcome)) :
    Effect before (some place) after := by
  unfold finish at taken
  split at taken
  · next whole =>
      split at taken
      · next bytes memory =>
          cases taken
          apply kept_effect found
          · exact ⟨Nat.one_pos, nofun⟩
          · simp [SpoolOwner.reserved, WriteStorage.reserved, memory]
      · next file stored =>
          cases taken
          obtain ⟨bytes, reservation⟩ := own.file file stored
          apply kept_effect found
          · refine ⟨Nat.one_pos, ?_⟩
            rintro _ ⟨⟩
            rw [bytes, own.hashed, reservation, whole]
          · simp [SpoolOwner.reserved, WriteStorage.reserved, stored]
      · next missing =>
          cases taken
          apply kept_effect found (show SpoolOwner.Sound .gone from trivial)
          simp [SpoolOwner.reserved, WriteStorage.reserved, missing]
  · cases taken
    exact .moved found trivial (Nat.zero_add _)

theorem drop_effect {before after : Spool} {place : Nat} {owner : SpoolOwner}
    (found : before.owners[place]? = some owner) (sound : owner.Sound)
    (taken : before.drop place owner = some after) : Effect before (some place) after := by
  unfold drop at taken
  split at taken
  · cases taken
    exact .moved found trivial (Nat.zero_add _)
  · cases taken
    exact kept_effect found trivial rfl
  · cases taken
    exact .moved found trivial (Nat.zero_add _)
  · cases taken
    exact .moved found trivial (Nat.zero_add _)
  · cases taken
    obtain ⟨-, stored, -⟩ := sound
    apply kept_effect found (show SpoolOwner.Sound (.task _) from trivial)
    simp [SpoolOwner.reserved, WriteStorage.reserved, stored]
  · cases taken
    exact kept_effect found ⟨Nat.succ_pos _, sound.2⟩ rfl
  · cases taken
    exact .moved found trivial (Nat.zero_add _)
  · cases taken
  · cases taken

/-- What one step does. -/
theorem step_effect {before after : Spool} {action : SpoolAction} {outcome : Option String}
    (bound : before.usedBytes ≤ before.maxBytes) (sound : ∀ owner ∈ before.owners, owner.Sound)
    (taken : before.step action = some (after, outcome)) : Effect before action.place after := by
  have own {place : Nat} {owner : SpoolOwner} (found : before.owners[place]? = some owner) :
      owner.Sound := sound owner (List.mem_of_getElem? found)
  cases action with
  | reserve bytes =>
      exact reserve_effect (show SpoolOwner.Sound (.credit _) from trivial) rfl
        (Option.some.inj taken)
  | create expectedLen memoryLimit slot => exact create_effect bound taken
  | created place failure =>
      simp only [step] at taken
      split at taken
      · next expectedLen reservation found =>
          cases taken
          have same : reservation = expectedLen := own found
          subst same
          exact kept_effect found (sound_new (.inr rfl)) rfl
      · next reservation message found =>
          cases taken
          exact .moved found trivial (Nat.zero_add _)
      · cases taken
  | write place bytes =>
      simp only [step] at taken
      split at taken
      · next writer found =>
          have sound : writer.Sound := own found
          have fits := sound.fits
          split at taken
          · next room =>
              cases taken
              refine kept_effect found ⟨sound, ?_⟩ rfl
              rw [Batches.flatten_chunks (by decide)]
              omega
          · cases taken
            exact .same
      · cases taken
  | chunk place =>
      simp only [step] at taken
      split at taken
      · next writer rest found => exact chunk_effect found (own found) (Option.some.inj taken)
      · cases taken
  | flushed place failure =>
      simp only [step] at taken
      split at taken
      · next writer file chunk rest found =>
          cases taken
          obtain ⟨sound, stored, bytes, reservation, fits⟩ := own found
          apply kept_effect found
          · refine ⟨sound.advance (by omega) nofun ?_, ?_⟩
            · rintro _ ⟨⟩
              exact ⟨by rw [SpoolFile.append, bytes], reservation⟩
            · simp only [ContentWriter.advance]
              omega
          · simp [SpoolOwner.reserved, ContentWriter.advance, WriteStorage.reserved, stored,
              SpoolFile.append]
      · next writer file chunk rest message found =>
          cases taken
          exact .moved found (own found).1 rfl
      · cases taken
  | abandon place =>
      simp only [step] at taken
      split at taken
      · next writer rest found =>
          cases taken
          exact kept_effect found (own found).1 rfl
      · next writer file chunk rest found =>
          cases taken
          exact .parted found (own found).1 trivial rfl
      · cases taken
  | finish place =>
      simp only [step] at taken
      split at taken
      · next writer found => exact finish_effect found (own found) (Option.some.inj taken)
      · cases taken
  | share place =>
      simp only [step] at taken
      split at taken
      · next reservation bytes views found =>
          cases taken
          exact kept_effect found ⟨Nat.succ_pos _, (own found).2⟩ rfl
      · cases taken
  | drop place =>
      obtain ⟨owner, found, taken⟩ := Option.bind_eq_some_iff.mp taken
      obtain ⟨middle, dropped, same⟩ := Option.bind_eq_some_iff.mp taken
      cases same
      exact drop_effect found (own found) dropped
  | ended place =>
      simp only [step] at taken
      split at taken
      · next reservation found =>
          cases taken
          exact .moved found trivial (Nat.zero_add _)
      · cases taken

theorem Accounts.step {maxBytes : Nat} {before after : Spool} {action : SpoolAction}
    {outcome : Option String} (accounts : Accounts maxBytes before)
    (taken : before.step action = some (after, outcome)) : Accounts maxBytes after :=
  accounts.effect (step_effect accounts.bound accounts.sound taken)

theorem usedBytes_release {maxBytes place : Nat} {state : Spool} {owner : SpoolOwner}
    (accounts : Accounts maxBytes state) (found : state.owners[place]? = some owner) :
    (state.release place owner.reserved .gone).usedBytes + owner.reserved = state.usedBytes := by
  have least := reserved_le found
  have total := accounts.total
  simp only [release]
  omega

/-- A content keeps its bytes and its reservation until its last view is dropped. -/
theorem content_step {maxBytes place views : Nat} {before after : Spool} {action : SpoolAction}
    {outcome : Option String} {reservation : Option Nat} {bytes : Bytes}
    (accounts : Accounts maxBytes before)
    (found : before.owners[place]? = some (.content reservation bytes views))
    (taken : before.step action = some (after, outcome)) :
    (∃ views', after.owners[place]? = some (.content reservation bytes views')) ∨
      views = 1 ∧ action = .drop place ∧ after.owners[place]? = some .gone ∧
        after.usedBytes + reservation.getD 0 = before.usedBytes := by
  have effect := step_effect accounts.bound accounts.sound taken
  by_cases here : action.place = some place
  · have inside : place < before.owners.length := (List.getElem?_eq_some_iff.mp found).1
    cases action with
    | reserve bytes => cases here
    | create expectedLen memoryLimit slot =>
        cases slot with
        | unscheduled => cases here
        | foreign => cases here
        | scheduled credit =>
            obtain rfl : credit = some place := here
            simp only [step, create, found] at taken
            split at taken
            · cases taken
              refine .inl ⟨views, ?_⟩
              rwa [push, List.getElem?_append_left inside]
            · cases taken
    | write owner bytes =>
        cases here
        simp only [step, found] at taken
        cases taken
    | share owner =>
        cases here
        simp only [step, found] at taken
        cases taken
        exact .inl ⟨views + 1, List.getElem?_set_self inside⟩
    | drop owner =>
        cases here
        simp only [step, found, Option.bind_eq_bind, Option.bind_some] at taken
        obtain ⟨middle, dropped, same⟩ := Option.bind_eq_some_iff.mp taken
        cases same
        match views with
        | 0 => exact absurd (accounts.sound _ (List.mem_of_getElem? found)).1 (lt_irrefl 0)
        | 1 =>
            cases dropped
            exact .inr ⟨rfl, rfl, List.getElem?_set_self inside, usedBytes_release accounts found⟩
        | views + 2 =>
            cases dropped
            exact .inl ⟨views + 1, List.getElem?_set_self inside⟩
    | _ =>
        cases here
        simp only [step, found] at taken
        cases taken
  · exact .inl ⟨views, effect.other here found⟩

/-- An owner is left without a reservation, and what it had reserved is free. -/
def GivesBack (before after : Spool) (place : Nat) (owner : SpoolOwner) : Prop :=
  ∃ left, after.owners[place]? = some left ∧ left.reserved = 0 ∧
    after.usedBytes + owner.reserved = before.usedBytes

section Failures

variable {maxBytes place : Nat} {before after : Spool} {message : String} {owner : SpoolOwner}

theorem givesBack_release (accounts : Accounts maxBytes before)
    (found : before.owners[place]? = some owner) :
    GivesBack before (before.release place owner.reserved .gone) place owner :=
  ⟨.gone, List.getElem?_set_self (List.getElem?_eq_some_iff.mp found).1, rfl,
    usedBytes_release accounts found⟩

theorem create_fails {expectedLen memoryLimit : Nat} (accounts : Accounts maxBytes before)
    (found : before.owners[place]? = some owner)
    (taken : before.step (.create expectedLen memoryLimit (.scheduled (some place))) =
      some (after, some message)) : GivesBack before after place owner := by
  simp only [step, create, found] at taken
  split at taken
  · cases taken
  · split at taken
    · next bytes same =>
      cases same
      split at taken
      · cases taken
      · cases taken
        exact givesBack_release accounts found
    · cases taken

theorem created_fails {failure : Option String} (accounts : Accounts maxBytes before)
    (found : before.owners[place]? = some owner)
    (taken : before.step (.created place failure) = some (after, some message)) :
    GivesBack before after place owner := by
  simp only [step] at taken
  split at taken
  · cases taken
  · next expectedLen reservation _ same =>
    cases taken
    obtain rfl := Option.some.inj (found.symm.trans same)
    exact givesBack_release accounts found
  · cases taken

theorem write_fails {bytes : Bytes} (found : before.owners[place]? = some owner)
    (taken : before.step (.write place bytes) = some (after, some message)) :
    ∃ writer, owner = .writer writer ∧ writer.expectedLen - writer.written < bytes.length ∧
      after = before := by
  simp only [step] at taken
  split at taken
  · next writer same =>
    obtain rfl := Option.some.inj (found.symm.trans same)
    split at taken
    · cases taken
    · next long =>
      cases taken
      exact ⟨writer, rfl, not_le.mp long, rfl⟩
  · cases taken

theorem chunk_fails (found : before.owners[place]? = some owner)
    (taken : before.step (.chunk place) = some (after, some message)) :
    GivesBack before after place owner := by
  simp only [step] at taken
  split at taken
  · next writer rest same =>
    obtain rfl := Option.some.inj (found.symm.trans same)
    unfold chunk at taken
    split at taken
    · cases taken
    · split at taken
      · cases taken
      · cases taken
      · next missing =>
        cases taken
        refine ⟨_, List.getElem?_set_self (List.getElem?_eq_some_iff.mp found).1, ?_, ?_⟩
        · simp [SpoolOwner.reserved, WriteStorage.reserved, missing]
        · simp [SpoolOwner.reserved, WriteStorage.reserved, missing, set]
  · cases taken

theorem flushed_fails {failure : Option String} (accounts : Accounts maxBytes before)
    (found : before.owners[place]? = some owner)
    (taken : before.step (.flushed place failure) = some (after, some message)) :
    GivesBack before after place owner := by
  simp only [step] at taken
  split at taken
  · cases taken
  · next writer file chunk rest _ same =>
    cases taken
    obtain rfl := Option.some.inj (found.symm.trans same)
    obtain ⟨-, stored, -⟩ := accounts.sound _ (List.mem_of_getElem? found)
    have weight : (SpoolOwner.flushing writer file chunk rest).reserved = file.reservation := by
      simp [SpoolOwner.reserved, WriteStorage.reserved, stored]
    have released := usedBytes_release accounts found
    refine ⟨_, List.getElem?_set_self (List.getElem?_eq_some_iff.mp found).1, ?_, ?_⟩
    · simp [SpoolOwner.reserved, WriteStorage.reserved, stored]
    · rw [weight] at released ⊢
      exact released
  · cases taken

theorem finish_fails (accounts : Accounts maxBytes before)
    (found : before.owners[place]? = some owner)
    (taken : before.step (.finish place) = some (after, some message)) :
    GivesBack before after place owner := by
  simp only [step] at taken
  split at taken
  · next writer same =>
    obtain rfl := Option.some.inj (found.symm.trans same)
    unfold finish at taken
    split at taken
    · split at taken
      · cases taken
      · cases taken
      · next missing =>
        cases taken
        refine ⟨.gone, List.getElem?_set_self (List.getElem?_eq_some_iff.mp found).1, rfl, ?_⟩
        simp [SpoolOwner.reserved, WriteStorage.reserved, missing, set]
    · cases taken
      exact givesBack_release accounts found
  · cases taken

/-- A step that fails gives back what its owner had reserved, but for a write that is refused for
its length, which does nothing. -/
theorem failure_step {action : SpoolAction} (accounts : Accounts maxBytes before)
    (here : action.place = some place) (found : before.owners[place]? = some owner)
    (taken : before.step action = some (after, some message)) :
    (∃ writer bytes, owner = .writer writer ∧ action = .write place bytes ∧
        writer.expectedLen - writer.written < bytes.length ∧ after = before) ∨
      GivesBack before after place owner := by
  cases action with
  | reserve bytes => cases here
  | create expectedLen memoryLimit slot =>
      cases slot with
      | unscheduled => cases here
      | foreign => cases here
      | scheduled credit =>
          cases here
          exact .inr (create_fails accounts found taken)
  | created own failure =>
      cases here
      exact .inr (created_fails accounts found taken)
  | write own bytes =>
      cases here
      obtain ⟨writer, same, long, unchanged⟩ := write_fails found taken
      exact .inl ⟨writer, bytes, same, rfl, long, unchanged⟩
  | chunk own =>
      cases here
      exact .inr (chunk_fails found taken)
  | flushed own failure =>
      cases here
      exact .inr (flushed_fails accounts found taken)
  | finish own =>
      cases here
      exact .inr (finish_fails accounts found taken)
  | drop own =>
      cases here
      obtain ⟨_, -, taken⟩ := Option.bind_eq_some_iff.mp taken
      obtain ⟨_, -, same⟩ := Option.bind_eq_some_iff.mp taken
      cases same
  | abandon own | share own | ended own =>
      cases here
      simp only [step] at taken
      split at taken <;> cases taken

end Failures

/-- A writer that is finished becomes a content of its bytes, with the reservation for them where
they are in a file. -/
theorem finish_step {maxBytes place : Nat} {before after : Spool} {writer : ContentWriter}
    (accounts : Accounts maxBytes before)
    (found : before.owners[place]? = some (.writer writer))
    (taken : before.step (.finish place) = some (after, none)) :
    after.usedBytes = before.usedBytes ∧
      ((∃ file, writer.storage = .file (some file) ∧ after.owners[place]? =
          some (.content (some file.bytes.length) file.bytes 1)) ∨
        ∃ bytes, writer.storage = .memory bytes ∧
          after.owners[place]? = some (.content none bytes 1)) := by
  have inside : place < before.owners.length := (List.getElem?_eq_some_iff.mp found).1
  have sound : writer.Sound := accounts.sound _ (List.mem_of_getElem? found)
  simp only [step, found, finish] at taken
  split at taken
  · next whole =>
    split at taken
    · next bytes stored =>
      cases taken
      exact ⟨rfl, .inr ⟨bytes, stored, List.getElem?_set_self inside⟩⟩
    · next file stored =>
      cases taken
      obtain ⟨bytes, reservation⟩ := sound.file file stored
      have same : file.reservation = file.bytes.length := by
        rw [reservation, bytes, sound.hashed, whole]
      exact ⟨rfl, .inl ⟨file, stored, same ▸ List.getElem?_set_self inside⟩⟩
    · cases taken
  · cases taken

/-- A writer that is dropped gives back what it had reserved. -/
theorem drop_writer {maxBytes place : Nat} {before after : Spool} {outcome : Option String}
    {writer : ContentWriter} (accounts : Accounts maxBytes before)
    (found : before.owners[place]? = some (.writer writer))
    (taken : before.step (.drop place) = some (after, outcome)) :
    after.owners[place]? = some .gone ∧
      after.usedBytes + writer.storage.reserved = before.usedBytes := by
  have inside : place < before.owners.length := (List.getElem?_eq_some_iff.mp found).1
  simp only [step, found, Option.bind_eq_bind, Option.bind_some, drop] at taken
  cases taken
  exact ⟨List.getElem?_set_self inside, usedBytes_release accounts found⟩

end Spool

/-- What the counter of a spool is after any run: the total of what is reserved, and no more than
the budget.  A writer that finishes a file becomes a content that has the reservation for its own
bytes, and a content keeps it until its last view is dropped.  A step that fails gives back what its
owner had reserved, unless it is a write that is refused for its length; what its writer has then is
given back with the writer. -/
theorem spool_budget_accounts {maxBytes : Nat} {actions : List SpoolAction} {state : Spool}
    (run : Run (fun before action after => before.next action = some after)
      (Spool.start maxBytes) actions state) :
    state.usedBytes = state.reserved ∧ state.usedBytes ≤ maxBytes ∧
    (∀ reservation bytes views, .content reservation bytes views ∈ state.owners →
      0 < views ∧ ∀ size ∈ reservation, size = bytes.length) ∧
    ∀ action after outcome, state.step action = some (after, outcome) →
      (∀ place reservation bytes views,
        state.owners[place]? = some (.content reservation bytes views) →
        (∃ views', after.owners[place]? = some (.content reservation bytes views')) ∨
          views = 1 ∧ action = .drop place ∧ after.owners[place]? = some .gone ∧
            after.usedBytes + reservation.getD 0 = state.usedBytes) ∧
      (∀ place owner message, action.place = some place → state.owners[place]? = some owner →
        outcome = some message →
        (∃ writer bytes, owner = .writer writer ∧ action = .write place bytes ∧
            writer.expectedLen - writer.written < bytes.length ∧ after = state) ∨
          ∃ left, after.owners[place]? = some left ∧ left.reserved = 0 ∧
            after.usedBytes + owner.reserved = state.usedBytes) ∧
      (∀ place writer, action = .finish place → state.owners[place]? = some (.writer writer) →
        outcome = none → after.usedBytes = state.usedBytes ∧
          ((∃ file, writer.storage = .file (some file) ∧ after.owners[place]? =
              some (.content (some file.bytes.length) file.bytes 1)) ∨
            ∃ bytes, writer.storage = .memory bytes ∧
              after.owners[place]? = some (.content none bytes 1))) ∧
      ∀ place writer, action = .drop place → state.owners[place]? = some (.writer writer) →
        after.owners[place]? = some .gone ∧
          after.usedBytes + writer.storage.reserved = state.usedBytes := by
  have accounts : Spool.Accounts maxBytes state := by
    apply run.invariant _ (Spool.accounts_start maxBytes)
    intro before action after accounts taken
    obtain ⟨⟨_, outcome⟩, stepped, rfl⟩ := Option.map_eq_some_iff.mp taken
    exact accounts.step stepped
  refine ⟨accounts.total, accounts.limit ▸ accounts.bound, ?_, ?_⟩
  · intro reservation bytes views member
    exact accounts.sound _ member
  · intro action after outcome taken
    refine ⟨?_, ?_, ?_, ?_⟩
    · intro place reservation bytes views found
      exact Spool.content_step accounts found taken
    · rintro place owner message here found rfl
      exact Spool.failure_step accounts here found taken
    · rintro place writer rfl found rfl
      exact Spool.finish_step accounts found taken
    · rintro place writer rfl found
      exact Spool.drop_writer accounts found taken

/-- A content of four bytes takes the whole budget until both of its views are dropped. -/
theorem spool_budget_accounts_sample :
    ∃ state, Run (fun before action after => before.next action = some after) (Spool.start 4)
        [.reserve 4, .create 4 1 (.scheduled (some 0)), .created 0 none, .create 1 0 .unscheduled,
          .write 0 [1, 2, 3, 4], .chunk 0, .flushed 0 none, .chunk 0, .finish 0, .share 0,
          .drop 0] state ∧
      state.owners = [.content (some 4) [1, 2, 3, 4] 1] ∧ state.usedBytes = state.reserved := by
  obtain ⟨state, run, owners⟩ := @Run.exists_of_foldlM _ _ Spool.next (Spool.start 4)
    [.reserve 4, .create 4 1 (.scheduled (some 0)), .created 0 none, .create 1 0 .unscheduled,
      .write 0 [1, 2, 3, 4], .chunk 0, .flushed 0 none, .chunk 0, .finish 0, .share 0, .drop 0]
    (fun state => state.owners = [.content (some 4) [1, 2, 3, 4] 1]) _ (by decide)
  exact ⟨state, run, owners, (spool_budget_accounts run).1⟩

/-- A writer whose write is refused for its length has its file, and what is reserved for it. -/
theorem refused_write_keeps_reservation :
    ¬∀ (actions : List SpoolAction) (state after : Spool) (place : Nat) (bytes : Bytes)
      (message : String),
      Run (fun before action after => before.next action = some after) (Spool.start 1) actions
        state → state.step (.write place bytes) = some (after, some message) →
      ∀ owner, after.owners[place]? = some owner → owner.reserved = 0 := by
  intro all
  let refused : Spool := ⟨1, 1, [.writer ⟨.file (some ⟨1, []⟩), 1, 0, []⟩]⟩
  have run : Run (fun before action after => before.next action = some after) (Spool.start 1)
      [.create 1 0 .unscheduled, .created 0 none] refused :=
    Run.of_foldlM (by decide)
  have kept := all _ refused refused 0 [1, 2] "content exceeds expected length" run
    (by decide) (.writer ⟨.file (some ⟨1, []⟩), 1, 0, []⟩) rfl
  exact absurd kept (by decide)

end ArIoGateway
