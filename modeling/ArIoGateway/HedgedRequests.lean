import ArIoGateway.Foundation.Checked
import ArIoGateway.Foundation.Runs
import Mathlib.Data.List.Nodup
import Mathlib.Data.List.Perm.Basic

/-!
# Hedged requests

A stream asks up to three sources for the same chunk at once.  The next source is asked some time
after the last one, and only time with a request in flight counts against the budget.  A turn of the
loop takes one of the branches that are ready, whichever comes first; the answers, the free slots
and the passing of time are up to the rest of the world, and so is when the stream is asked for the
next item.
-/

namespace ArIoGateway

/-- How many requests may be in flight. -/
def maxHedged : Nat := 3

/-- What an attempt to take a slot of a source finds. -/
inductive ChunkSlot where
  | free
  | taken
  | invalid (message : String)
deriving DecidableEq

/-- What admission comes to: a source that gave a slot, no source left, or a wait for a slot. -/
inductive ChunkAdmission where
  | admitted (source : String)
  | none
  | waiting
deriving DecidableEq

/-- The loop over the candidates. -/
def scanCandidates (attempted : List String) (remaining : Bool) :
    List (String × ChunkSlot) → Checked ChunkAdmission
  | [] => pure (if remaining then .waiting else .none)
  | (source, slot) :: candidates =>
      if source ∈ attempted then scanCandidates attempted remaining candidates
      else
        match slot with
        | .free => pure (.admitted source)
        | .taken => scanCandidates attempted true candidates
        | .invalid message => .error message

/-- `admit_chunk`, with the candidates that it finds and what taking their slots comes to. -/
def admitChunk (attempted : List String) (candidates : Checked (List (String × ChunkSlot))) :
    Checked ChunkAdmission := do
  scanCandidates attempted false (← candidates)

/-- A request in flight, with its answer and when it came. -/
structure Attempt (T : Type) where
  source : String
  answer : Option (Nat × Except String T)
deriving DecidableEq

/-- The state that the stream carries from item to item. -/
structure HedgedStream (T : Type) where
  attempted : List String
  active : List (Attempt T)
  launchAt : Nat
  exhausted : Bool
  remaining : Nat
  deadline : Option Nat
deriving DecidableEq

/-- An item of the stream. -/
inductive HedgedItem (T : Type) where
  | response (attempt : Attempt T)
  | timedOut
  | failed (message : String)
deriving DecidableEq

/-- What polling the requests in flight finds. -/
inductive ActivePoll (T : Type) where
  | empty
  | pending
  | ready (attempt : Attempt T) (rest : List (Attempt T))

/-- The branches of the select, with the request that is polled first, and with what admission finds
and how long the source is given before the next one is asked. -/
inductive HedgeBranch where
  | timer
  | next (place : Nat)
  | admission (candidates : Checked (List (String × ChunkSlot))) (delay : Nat)
  | otherwise

/-- How a turn of the loop ends. -/
inductive HedgeTurn (T : Type) where
  | again (stream : HedgedStream T)
  | yielded (item : HedgedItem T) (stream : HedgedStream T)
  | panicked

/-- `FuturesUnordered::next`. -/
def pollActive {T : Type} (active : List (Attempt T)) (place : Nat) : ActivePoll T :=
  if active.isEmpty then .empty
  else
    match active[place]? with
    | some ⟨source, some answer⟩ => .ready ⟨source, some answer⟩ (active.eraseIdx place)
    | _ => .pending

namespace HedgedStream

variable {T : Type}

/-- A stream that is about to start. -/
def start (budget now : Nat) : HedgedStream T where
  attempted := []
  active := []
  launchAt := now
  exhausted := false
  remaining := budget
  deadline := none

/-- Whether the stream has nothing more to give. -/
def finished (stream : HedgedStream T) : Bool := stream.exhausted && stream.active.isEmpty

def timerEnabled (stream : HedgedStream T) : Bool :=
  stream.deadline.isSome || stream.remaining == 0

def nextEnabled (stream : HedgedStream T) : Bool := !stream.active.isEmpty

def admissionEnabled (stream : HedgedStream T) : Bool :=
  decide (stream.active.length < maxHedged) && !stream.exhausted

/-- Give up all requests. -/
def expire (stream : HedgedStream T) : HedgedStream T :=
  { stream with active := [], exhausted := true, remaining := 0, deadline := none }

/-- The branch of an answer.  Both values that it unwraps may be missing. -/
def takeAnswer (stream : HedgedStream T) (now place : Nat) : Option (HedgeTurn T) :=
  match pollActive stream.active place with
  | .pending => none
  | .empty => some .panicked
  | .ready attempt rest =>
      if rest.isEmpty then
        match stream.deadline with
        | none => some .panicked
        | some deadline =>
            some (.yielded (.response attempt)
              { stream with
                active := rest, launchAt := now, remaining := deadline - now, deadline := none })
      else some (.yielded (.response attempt) { stream with active := rest, launchAt := now })

/-- Ask a source. -/
def launch (stream : HedgedStream T) (now delay : Nat) (source : String) : HedgedStream T :=
  { stream with
    deadline := if stream.active.isEmpty then some (now + stream.remaining) else stream.deadline
    attempted := stream.attempted ++ [source]
    launchAt := now + delay
    active := stream.active ++ [⟨source, none⟩] }

/-- The branch of admission. -/
def takeAdmission (stream : HedgedStream T) (now delay : Nat)
    (candidates : Checked (List (String × ChunkSlot))) : Option (HedgeTurn T) :=
  match admitChunk stream.attempted candidates with
  | .ok (.admitted source) => some (.again (stream.launch now delay source))
  | .ok .none => some (.again { stream with exhausted := true })
  | .ok .waiting => none
  | .error message => some (.yielded (.failed message) { stream with exhausted := true })

/-- A turn of the loop that takes a branch, when the branch is enabled and ready.  A select with no
branch enabled panics. -/
def turn (stream : HedgedStream T) (now : Nat) : HedgeBranch → Option (HedgeTurn T)
  | .timer =>
      if stream.timerEnabled ∧ stream.deadline.getD now ≤ now then
        some (.yielded .timedOut stream.expire)
      else none
  | .next place => if stream.nextEnabled then stream.takeAnswer now place else none
  | .admission candidates delay =>
      if stream.admissionEnabled ∧ stream.launchAt ≤ now then
        stream.takeAdmission now delay candidates
      else none
  | .otherwise =>
      if stream.timerEnabled ∨ stream.nextEnabled ∨ stream.admissionEnabled then none
      else some .panicked

end HedgedStream

/-- Whether the stream waits to be asked, works on an item, or has come to its end. -/
inductive HedgePhase where
  | held
  | polling
  | ended
  | panicked
deriving DecidableEq

/-- A launch, with what admission found and who had been asked before. -/
structure Launch where
  source : String
  candidates : List (String × ChunkSlot)
  attempted : List String
deriving DecidableEq

/-- The stream in time.  The launches, the items, the requests that were given up with the deadline
at that moment, the time with a request in flight and the part of it after a deadline are for the
record. -/
structure HedgedRun (T : Type) where
  stream : HedgedStream T
  phase : HedgePhase
  now : Nat
  launches : List Launch
  yielded : List (HedgedItem T)
  dropped : List (Attempt T × Nat)
  inFlight : Nat
  late : Nat
deriving DecidableEq

/-- What happens to a stream: time passes, the answer to a request comes, the next item is asked for,
the loop finds that there is none, or a turn of the loop takes a branch. -/
inductive HedgeEvent (T : Type) where
  | elapse (duration : Nat)
  | answer (place : Nat) (result : Except String T)
  | call
  | close
  | select (branch : HedgeBranch)

namespace HedgedRun

variable {T : Type}

/-- `hedged_requests`, before the first item is asked for. -/
def start (budget now : Nat) : HedgedRun T where
  stream := .start budget now
  phase := .held
  now := now
  launches := []
  yielded := []
  dropped := []
  inFlight := 0
  late := 0

/-- Let time pass. -/
def elapse (state : HedgedRun T) (duration : Nat) : HedgedRun T :=
  { state with
    now := state.now + duration
    inFlight := if state.stream.active.isEmpty then state.inFlight else state.inFlight + duration
    late :=
      match state.stream.deadline with
      | none => state.late
      | some deadline =>
          state.late + ((state.now + duration - deadline) - (state.now - deadline)) }

/-- Note the answer to a request that has none. -/
def answer (state : HedgedRun T) (place : Nat) (result : Except String T) : Option (HedgedRun T) :=
  match state.stream.active[place]? with
  | some ⟨source, none⟩ =>
      some { state with
        stream :=
          { state.stream with
            active := state.stream.active.set place ⟨source, some (state.now, result)⟩ } }
  | _ => none

/-- The launch of a turn, if it has one. -/
def launched (state : HedgedRun T) : HedgeBranch → List Launch
  | .admission (.ok candidates) _ =>
      match admitChunk state.stream.attempted (.ok candidates) with
      | .ok (.admitted source) => [⟨source, candidates, state.stream.attempted⟩]
      | _ => []
  | _ => []

/-- The requests that a turn gives up. -/
def expired (state : HedgedRun T) : HedgeBranch → List (Attempt T × Nat)
  | .timer => state.stream.active.map fun attempt => (attempt, state.stream.deadline.getD state.now)
  | _ => []

/-- Take a turn of the loop. -/
def select (state : HedgedRun T) (branch : HedgeBranch) : Option (HedgedRun T) :=
  (state.stream.turn state.now branch).map fun
    | .again stream =>
        { state with stream, launches := state.launches ++ state.launched branch }
    | .yielded item stream =>
        { state with
          stream, phase := .held, yielded := state.yielded ++ [item]
          dropped := state.dropped ++ state.expired branch }
    | .panicked => { state with phase := .panicked }

end HedgedRun

/-- One step of a stream in time. -/
def hedgeStep {T : Type} (state : HedgedRun T) : HedgeEvent T → Option (HedgedRun T)
  | .elapse duration => some (state.elapse duration)
  | .answer place result => state.answer place result
  | .call => if state.phase = .held then some { state with phase := .polling } else none
  | .close =>
      if state.phase = .polling ∧ state.stream.finished then some { state with phase := .ended }
      else none
  | .select branch =>
      if state.phase = .polling ∧ ¬ state.stream.finished then state.select branch else none

/-- The source of a launch is the first candidate that was not asked before and gave a slot. -/
def Launch.First (launch : Launch) : Prop :=
  ∃ earlier later, launch.candidates = earlier ++ (launch.source, .free) :: later ∧
    launch.source ∉ launch.attempted ∧
    ∀ other ∈ earlier, other.1 ∈ launch.attempted ∨ other.2 = .taken

/-- The source that an item answers for. -/
def HedgedItem.source? {T : Type} : HedgedItem T → Option String
  | .response attempt => some attempt.source
  | _ => none

/-- What is left of the budget. -/
def HedgedStream.left {T : Type} (stream : HedgedStream T) (now : Nat) : Nat :=
  match stream.deadline with
  | none => stream.remaining
  | some deadline => deadline - now

/-- What holds of a stream in every state.  Each source that was asked is in flight, has been answered
for or has been given up; the time in flight and what is left make up the budget, but for the time
after a deadline; and nothing comes after a timeout. -/
structure HedgedRun.Sound {T : Type} (budget : Nat) (state : HedgedRun T) : Prop where
  deadline : state.stream.deadline.isSome ↔ state.stream.active ≠ []
  few : state.stream.active.length ≤ maxHedged
  total : state.phase ≠ .panicked
  attempted : state.stream.attempted = state.launches.map Launch.source
  once : state.stream.attempted.Nodup
  first : ∀ launch ∈ state.launches, launch.First
  accounted : List.Perm state.stream.attempted
    (state.stream.active.map Attempt.source ++
      (state.yielded.filterMap HedgedItem.source? ++
        state.dropped.map fun drop => drop.1.source))
  spent : state.inFlight + state.stream.left state.now = budget + state.late
  last : .timedOut ∉ state.yielded ∨
    state.stream.finished ∧ ∃ before, state.yielded = before ++ [.timedOut] ∧ .timedOut ∉ before

theorem scanCandidates_admitted {attempted : List String} {remaining : Bool}
    {candidates : List (String × ChunkSlot)} {source : String}
    (scanned : scanCandidates attempted remaining candidates = .ok (.admitted source)) :
    Launch.First ⟨source, candidates, attempted⟩ := by
  induction candidates generalizing remaining with
  | nil =>
      rw [scanCandidates] at scanned
      cases remaining <;> cases scanned
  | cons candidate candidates induction =>
      obtain ⟨other, slot⟩ := candidate
      have later (skipped : other ∈ attempted ∨ slot = .taken)
          (rest : Launch.First ⟨source, candidates, attempted⟩) :
          Launch.First ⟨source, (other, slot) :: candidates, attempted⟩ := by
        obtain ⟨earlier, later, split, fresh, passed⟩ := rest
        refine ⟨(other, slot) :: earlier, later, congrArg (_ :: ·) split, fresh, ?_⟩
        rintro passing (_ | ⟨_, member⟩)
        · exact skipped
        · exact passed passing member
      simp only [scanCandidates] at scanned
      split at scanned
      · next asked => exact later (.inl asked) (induction scanned)
      · next fresh =>
          cases slot with
          | free =>
              cases scanned
              exact ⟨[], candidates, rfl, fresh, by simp⟩
          | taken => exact later (.inr rfl) (induction scanned)
          | invalid message => cases scanned

theorem first_of_admitChunk {attempted : List String}
    {candidates : Checked (List (String × ChunkSlot))}
    {source : String} (admitted : admitChunk attempted candidates = .ok (.admitted source)) :
    ∃ found, candidates = .ok found ∧ Launch.First ⟨source, found, attempted⟩ := by
  obtain ⟨found, same, scanned⟩ := Checked.bind_eq_ok.mp admitted
  exact ⟨found, same, scanCandidates_admitted scanned⟩

theorem pollActive_ready {T : Type} {active rest : List (Attempt T)} {place : Nat}
    {attempt : Attempt T} (polled : pollActive active place = .ready attempt rest) :
    active.Perm (attempt :: rest) ∧ attempt.answer.isSome := by
  unfold pollActive at polled
  split at polled
  · cases polled
  · split at polled
    · next source answer found =>
        cases polled
        obtain ⟨inside, same⟩ := List.getElem?_eq_some_iff.mp found
        refine ⟨?_, rfl⟩
        rw [← same]
        exact (List.getElem_cons_eraseIdx_perm inside).symm
    · cases polled

theorem pollActive_ne_empty {T : Type} {active : List (Attempt T)} (place : Nat)
    (waiting : active ≠ []) : pollActive active place ≠ .empty := by
  unfold pollActive
  rw [if_neg (by simpa using waiting)]
  split <;> simp

/-- What a turn does when it takes a branch. -/
inductive HedgedStream.Turned {T : Type} (stream : HedgedStream T) (now : Nat) :
    HedgeBranch → HedgeTurn T → Prop
  | timer (enabled : stream.timerEnabled) (due : stream.deadline.getD now ≤ now) :
      Turned stream now .timer (.yielded .timedOut stream.expire)
  | lastAnswer {place attempt limit} (only : stream.active = [attempt])
      (answered : attempt.answer.isSome) (limited : stream.deadline = some limit) :
      Turned stream now (.next place) (.yielded (.response attempt)
        { stream with
          active := [], launchAt := now, remaining := limit - now, deadline := none })
  | answer {place attempt rest} (split : stream.active.Perm (attempt :: rest))
      (answered : attempt.answer.isSome) (more : rest ≠ []) :
      Turned stream now (.next place) (.yielded (.response attempt)
        { stream with active := rest, launchAt := now })
  | launch {candidates delay source} (few : stream.active.length < maxHedged)
      (going : stream.exhausted = false)
      (admitted : admitChunk stream.attempted (.ok candidates) = .ok (.admitted source)) :
      Turned stream now (.admission (.ok candidates) delay)
        (.again (stream.launch now delay source))
  | exhaust {candidates delay} (going : stream.exhausted = false)
      (none : admitChunk stream.attempted candidates = .ok .none) :
      Turned stream now (.admission candidates delay) (.again { stream with exhausted := true })
  | fail {candidates delay message} (going : stream.exhausted = false)
      (failed : admitChunk stream.attempted candidates = .error message) :
      Turned stream now (.admission candidates delay)
        (.yielded (.failed message) { stream with exhausted := true })

theorem HedgedStream.turned_of_takeAnswer {T : Type} {stream : HedgedStream T} {now place : Nat}
    {turn : HedgeTurn T} (deadline : stream.deadline.isSome ↔ stream.active ≠ [])
    (waiting : stream.active ≠ []) (taken : stream.takeAnswer now place = some turn) :
    stream.Turned now (.next place) turn := by
  unfold takeAnswer at taken
  split at taken
  · cases taken
  · next empty => exact (pollActive_ne_empty place waiting empty).elim
  · next attempt rest polled =>
      obtain ⟨split, answered⟩ := pollActive_ready polled
      obtain ⟨limit, limited⟩ := Option.isSome_iff_exists.mp (deadline.mpr waiting)
      cases rest with
      | nil =>
          rw [List.perm_singleton] at split
          simp only [List.isEmpty_nil, if_true, limited, Option.some.injEq] at taken
          exact taken ▸ .lastAnswer split answered limited
      | cons next rest =>
          simp only [List.isEmpty_cons, Bool.false_eq_true, if_false, Option.some.injEq] at taken
          exact taken ▸ .answer split answered (by simp)

theorem HedgedStream.turned_of_takeAdmission {T : Type} {stream : HedgedStream T}
    {now delay : Nat} {candidates : Checked (List (String × ChunkSlot))} {turn : HedgeTurn T}
    (enabled : stream.admissionEnabled)
    (taken : stream.takeAdmission now delay candidates = some turn) :
    stream.Turned now (.admission candidates delay) turn := by
  obtain ⟨few, going⟩ : stream.active.length < maxHedged ∧ stream.exhausted = false := by
    simpa [admissionEnabled] using enabled
  unfold takeAdmission at taken
  split at taken
  · next source admitted =>
      obtain rfl := Option.some.inj taken
      obtain ⟨found, rfl, _⟩ := first_of_admitChunk admitted
      exact .launch few going admitted
  · next none =>
      obtain rfl := Option.some.inj taken
      exact .exhaust going none
  · cases taken
  · next message failed =>
      obtain rfl := Option.some.inj taken
      exact .fail going failed

/-- A turn of a stream that is not finished takes one of the branches: nothing is unwrapped that is
missing, and some branch is enabled. -/
theorem HedgedStream.turned_of_turn {T : Type} {stream : HedgedStream T} {now : Nat}
    {branch : HedgeBranch} {turn : HedgeTurn T}
    (deadline : stream.deadline.isSome ↔ stream.active ≠ []) (unfinished : ¬ stream.finished)
    (taken : stream.turn now branch = some turn) : stream.Turned now branch turn := by
  cases branch with
  | timer =>
      simp only [HedgedStream.turn, Option.ite_none_right_eq_some, Option.some.injEq] at taken
      obtain ⟨⟨enabled, due⟩, rfl⟩ := taken
      exact .timer enabled due
  | next place =>
      simp only [HedgedStream.turn, Option.ite_none_right_eq_some] at taken
      exact turned_of_takeAnswer deadline (by simpa [nextEnabled] using taken.1) taken.2
  | admission candidates delay =>
      simp only [HedgedStream.turn, Option.ite_none_right_eq_some] at taken
      exact turned_of_takeAdmission taken.1.1 taken.2
  | otherwise =>
      simp only [HedgedStream.turn, Option.ite_none_left_eq_some, not_or] at taken
      obtain ⟨⟨_, noRequest, noAdmission⟩, _⟩ := taken
      have idle : stream.active = [] := by simpa [nextEnabled] using noRequest
      simp_all [finished, admissionEnabled, maxHedged]

namespace HedgedRun

variable {T : Type} {budget : Nat}

theorem sound_start (budget now : Nat) : Sound budget (start budget now : HedgedRun T) := by
  constructor <;> simp [start, HedgedStream.start, HedgedStream.left]

/-- The time in flight grows by what the time left shrinks, up to the deadline. -/
theorem Sound.elapse {state : HedgedRun T} (sound : state.Sound budget) (duration : Nat) :
    (state.elapse duration).Sound budget := by
  obtain ⟨deadline, few, total, attempted, once, first, accounted, spent, last⟩ := sound
  refine ⟨deadline, few, total, attempted, once, first, accounted, ?_, last⟩
  cases limit : state.stream.deadline with
  | none =>
      have idle : state.stream.active = [] := by simpa [limit] using deadline
      simp only [HedgedStream.left, HedgedRun.elapse, limit] at spent ⊢
      simpa [idle] using spent
  | some limit' =>
      have busy : state.stream.active ≠ [] := by simpa [limit] using deadline
      simp only [HedgedStream.left, HedgedRun.elapse, limit] at spent ⊢
      rw [if_neg (by simpa using busy)]
      omega

theorem Sound.answer {before after : HedgedRun T} (sound : before.Sound budget) {place : Nat}
    {result : Except String T} (answered : before.answer place result = some after) :
    after.Sound budget := by
  unfold HedgedRun.answer at answered
  split at answered
  · next source found =>
      obtain rfl := Option.some.inj answered
      obtain ⟨deadline, few, total, attempted, once, first, accounted, spent, last⟩ := sound
      have sources : (before.stream.active.set place ⟨source, some (before.now, result)⟩).map
          Attempt.source = before.stream.active.map Attempt.source := by
        obtain ⟨inside, same⟩ := List.getElem?_eq_some_iff.mp found
        have kept : source = (before.stream.active.map Attempt.source).get ⟨place, by simpa⟩ := by
          simp [same]
        rw [List.map_set]
        exact (congrArg _ kept).trans (List.set_getElem_self _)
      refine ⟨?_, by simpa using few, total, attempted, once, first, ?_, spent, ?_⟩
      · simpa using deadline
      · simpa only [sources] using accounted
      · simpa [HedgedStream.finished] using last
  · cases answered

theorem left_eq_zero {stream : HedgedStream T} {now : Nat} (enabled : stream.timerEnabled)
    (due : stream.deadline.getD now ≤ now) : stream.left now = 0 := by
  cases limit : stream.deadline with
  | none => simpa [HedgedStream.timerEnabled, HedgedStream.left, limit] using enabled
  | some deadline =>
      have due : deadline ≤ now := by simpa [limit] using due
      simpa only [HedgedStream.left, limit] using Nat.sub_eq_zero_of_le due

theorem launched_of_admitted {state : HedgedRun T} {candidates : List (String × ChunkSlot)}
    {delay : Nat} {source : String}
    (admitted : admitChunk state.stream.attempted (.ok candidates) = .ok (.admitted source)) :
    state.launched (.admission (.ok candidates) delay) =
      [⟨source, candidates, state.stream.attempted⟩] := by
  simp only [launched, admitted]

theorem launched_of_none {state : HedgedRun T} {candidates : Checked (List (String × ChunkSlot))}
    {delay : Nat} (none : admitChunk state.stream.attempted candidates = .ok .none) :
    state.launched (.admission candidates delay) = [] := by
  cases candidates with
  | error message => rfl
  | ok found => simp only [launched, none]

/-- A source that moves from those in flight to those answered for. -/
theorem moved {α : Type} (value : α) (flying answered dropped : List α) :
    List.Perm (value :: (flying ++ (answered ++ dropped)))
      (flying ++ (answered ++ value :: dropped)) := by
  rw [← List.append_assoc, ← List.append_assoc]
  exact List.perm_middle.symm

/-- What a turn of the loop does to a sound stream. -/
theorem Sound.select {before after : HedgedRun T} {branch : HedgeBranch}
    (sound : before.Sound budget) (polling : before.phase = .polling)
    (unfinished : ¬ before.stream.finished) (taken : before.select branch = some after) :
    after.Sound budget := by
  obtain ⟨deadline, few, total, attempted, once, first, accounted, spent, last⟩ := sound
  obtain ⟨turn, turned, rfl⟩ := Option.map_eq_some_iff.mp taken
  have unlimited : .timedOut ∉ before.yielded := last.resolve_right fun done => unfinished done.1
  have still (item : HedgedItem T) (other : item ≠ .timedOut) :
      .timedOut ∉ before.yielded ++ [item] := by
    simpa [unlimited] using Ne.symm other
  cases HedgedStream.turned_of_turn deadline unfinished turned with
  | timer enabled due =>
      have out : before.stream.left before.now = 0 := left_eq_zero enabled due
      refine ⟨by simp [HedgedStream.expire], by simp [HedgedStream.expire], by simp, attempted, once,
        first, ?_, ?_, .inr ⟨rfl, before.yielded, rfl, unlimited⟩⟩
      · refine accounted.trans (List.perm_append_comm.trans ?_)
        simp [HedgedStream.expire, expired, List.filterMap_cons, HedgedItem.source?,
          Function.comp_def]
      · rw [out] at spent
        exact spent
  | lastAnswer only answered limited =>
      refine ⟨by simp, by simp, by simp, attempted, once, first, ?_, ?_, .inl (still _ (by simp))⟩
      · refine accounted.trans ?_
        simpa [only, expired, HedgedItem.source?] using List.perm_middle.symm
      · simpa [HedgedStream.left, limited] using spent
  | @answer place attempt rest split answered more =>
      have busy : before.stream.active ≠ [] := fun none => by simp [none] at split
      refine ⟨?_, ?_, by simp, attempted, once, first, ?_, spent, .inl (still _ (by simp))⟩
      · simpa [more] using deadline.mpr busy
      · have length := split.length_eq
        simp only [List.length_cons] at length
        exact Nat.le_trans (by simp only [length]; omega) few
      · refine accounted.trans (((split.map _).append_right _).trans ?_)
        simpa [expired, HedgedItem.source?] using moved _ _ _ _
  | @launch candidates delay source few going admitted =>
      obtain ⟨_, same, new⟩ := first_of_admitChunk admitted
      cases same
      have fresh : source ∉ before.stream.attempted := new.choose_spec.choose_spec.2.1
      refine ⟨?_, ?_, by simp [polling], ?_, ?_, ?_, ?_, ?_, .inl unlimited⟩
      · cases idle : before.stream.active.isEmpty with
        | true => simp [HedgedStream.launch, idle]
        | false => simpa [HedgedStream.launch, idle] using deadline.mpr (by simpa using idle)
      · simpa [HedgedStream.launch] using Nat.succ_le_of_lt few
      · rw [launched_of_admitted admitted, List.map_append, ← attempted]
        rfl
      · exact List.nodup_append_comm.mp (List.nodup_cons.mpr ⟨fresh, once⟩)
      · intro launch member
        rcases List.mem_append.mp member with old | new
        · exact first launch old
        · rw [launched_of_admitted admitted, List.mem_singleton] at new
          exact new ▸ ‹Launch.First _›
      · refine (accounted.append_right [source]).trans ?_
        simp only [HedgedStream.launch, List.map_append, List.map_cons, List.map_nil]
        exact (List.Perm.of_eq (List.append_assoc _ _ _)).trans
          ((List.perm_append_comm.append_left _).trans (.of_eq (List.append_assoc _ _ _).symm))
      · cases idle : before.stream.active.isEmpty with
        | true =>
            have unset : before.stream.deadline = none := by
              simpa using (not_iff_not.mpr deadline).mpr (by simpa using idle)
            simpa [HedgedStream.launch, HedgedStream.left, idle, unset] using spent
        | false => simpa [HedgedStream.launch, HedgedStream.left, idle] using spent
  | exhaust going none =>
      refine ⟨deadline, few, by simp [polling], ?_, once, ?_, accounted, spent, .inl unlimited⟩
      · rw [launched_of_none none, List.append_nil]
        exact attempted
      · rw [launched_of_none none, List.append_nil]
        exact first
  | fail going failed =>
      refine ⟨deadline, few, by simp, attempted, once, first, ?_, spent, .inl (still _ (by simp))⟩
      simpa [expired, List.filterMap_cons, HedgedItem.source?] using accounted

/-- Every step keeps a stream sound. -/
theorem Sound.step {before after : HedgedRun T} {event : HedgeEvent T}
    (sound : before.Sound budget) (taken : hedgeStep before event = some after) :
    after.Sound budget := by
  cases event with
  | elapse duration =>
      obtain rfl := Option.some.inj taken
      exact sound.elapse duration
  | answer place result => exact sound.answer taken
  | call =>
      simp only [hedgeStep, Option.ite_none_right_eq_some, Option.some.injEq] at taken
      obtain ⟨_, rfl⟩ := taken
      exact { sound with total := by simp }
  | close =>
      simp only [hedgeStep, Option.ite_none_right_eq_some, Option.some.injEq] at taken
      obtain ⟨_, rfl⟩ := taken
      exact { sound with total := by simp }
  | select branch =>
      simp only [hedgeStep, Option.ite_none_right_eq_some] at taken
      exact sound.select taken.1.1 taken.1.2 taken.2

end HedgedRun

/-- Whether time passes only while there is nothing to take: no request in flight has its answer, and
no deadline is passed over. -/
def HedgedRun.Prompt {T : Type} (state : HedgedRun T) : HedgeEvent T → Prop
  | .elapse duration =>
      (∀ attempt ∈ state.stream.active, attempt.answer = none) ∧
        ∀ deadline ∈ state.stream.deadline, state.now + duration ≤ deadline
  | _ => True

instance {T : Type} (state : HedgedRun T) (event : HedgeEvent T) : Decidable (state.Prompt event) :=
  match event with
  | .elapse duration =>
      haveI (attempt : Attempt T) : Decidable (attempt.answer = none) :=
        decidable_of_iff _ Option.isNone_iff_eq_none
      inferInstanceAs (Decidable ((∀ attempt ∈ state.stream.active, attempt.answer = none) ∧
        ∀ deadline ∈ state.stream.deadline, state.now + duration ≤ deadline))
  | .answer _ _ | .call | .close | .select _ => .isTrue trivial

/-- A step of a stream that is asked in time. -/
def promptStep {T : Type} (before : HedgedRun T) (event : HedgeEvent T) (after : HedgedRun T) :
    Prop :=
  hedgeStep before event = some after ∧ before.Prompt event

/-- What holds besides of a stream that is asked in time: no deadline has passed, answers in flight
came just now, and requests that were given up had no answer before the deadline. -/
structure HedgedRun.Punctual {T : Type} (budget : Nat) (state : HedgedRun T) : Prop where
  sound : state.Sound budget
  ahead : ∀ deadline, state.stream.deadline = some deadline → state.now ≤ deadline
  fresh : ∀ attempt ∈ state.stream.active, ∀ time result, attempt.answer = some (time, result) →
    time = state.now
  onTime : state.late = 0
  unanswered : ∀ drop ∈ state.dropped, ∀ time result, drop.1.answer = some (time, result) →
    drop.2 ≤ time

namespace HedgedRun

variable {T : Type} {budget : Nat}

theorem Punctual.select {before after : HedgedRun T} {branch : HedgeBranch}
    (punctual : before.Punctual budget) (polling : before.phase = .polling)
    (unfinished : ¬ before.stream.finished) (taken : before.select branch = some after) :
    after.Punctual budget := by
  have afterSound := punctual.sound.select polling unfinished taken
  obtain ⟨sound, ahead, fresh, onTime, unanswered⟩ := punctual
  obtain ⟨turn, turned, rfl⟩ := Option.map_eq_some_iff.mp taken
  cases HedgedStream.turned_of_turn sound.deadline unfinished turned with
  | timer enabled due =>
      refine ⟨afterSound, by simp [HedgedStream.expire], by simp [HedgedStream.expire], onTime, ?_⟩
      intro drop member time result answered
      rcases List.mem_append.mp member with old | new
      · exact unanswered drop old time result answered
      · obtain ⟨attempt, flying, rfl⟩ := List.mem_map.mp new
        rw [fresh attempt flying time result answered]
        exact due
  | lastAnswer only answered limited =>
      refine ⟨afterSound, by simp, by simp, onTime, ?_⟩
      simpa [expired] using unanswered
  | @answer place attempt rest split answered more =>
      refine ⟨afterSound, ahead, ?_, onTime, by simpa [expired] using unanswered⟩
      intro other member
      exact fresh other (split.mem_iff.mpr (List.mem_cons_of_mem _ member))
  | @launch candidates delay source few going admitted =>
      refine ⟨afterSound, ?_, ?_, onTime, unanswered⟩
      · intro deadline limit
        simp only [HedgedStream.launch] at limit
        split at limit
        · cases limit
          exact Nat.le_add_right _ _
        · exact ahead deadline limit
      · intro attempt member time result answered
        rcases List.mem_append.mp member with old | new
        · exact fresh attempt old time result answered
        · cases List.mem_singleton.mp new
          cases answered
  | exhaust going none => exact ⟨afterSound, ahead, fresh, onTime, unanswered⟩
  | fail going failed =>
      exact ⟨afterSound, ahead, fresh, onTime, by simpa [expired] using unanswered⟩

theorem Punctual.step {before after : HedgedRun T} {event : HedgeEvent T}
    (punctual : before.Punctual budget) (taken : promptStep before event after) :
    after.Punctual budget := by
  obtain ⟨taken, prompt⟩ := taken
  have afterSound := punctual.sound.step taken
  cases event with
  | elapse duration =>
      obtain rfl := Option.some.inj taken
      obtain ⟨unready, inTime⟩ := prompt
      refine ⟨afterSound, inTime, ?_, ?_, punctual.unanswered⟩
      · intro attempt member time result answered
        rw [unready attempt member] at answered
        cases answered
      · simp only [HedgedRun.elapse]
        split
        · exact punctual.onTime
        · next deadline limit =>
            have short := inTime deadline limit
            rw [punctual.onTime]
            omega
  | answer place result =>
      simp only [hedgeStep, HedgedRun.answer] at taken
      split at taken
      · next source found =>
          obtain rfl := Option.some.inj taken
          refine ⟨afterSound, punctual.ahead, ?_, punctual.onTime, punctual.unanswered⟩
          intro attempt member time other answered
          rcases List.mem_or_eq_of_mem_set member with old | rfl
          · exact punctual.fresh attempt old time other answered
          · cases answered
            rfl
      · cases taken
  | call =>
      simp only [hedgeStep, Option.ite_none_right_eq_some, Option.some.injEq] at taken
      obtain ⟨_, rfl⟩ := taken
      exact { punctual with sound := afterSound }
  | close =>
      simp only [hedgeStep, Option.ite_none_right_eq_some, Option.some.injEq] at taken
      obtain ⟨_, rfl⟩ := taken
      exact { punctual with sound := afterSound }
  | select branch =>
      simp only [hedgeStep, Option.ite_none_right_eq_some] at taken
      exact punctual.select taken.1.1 taken.1.2 taken.2

end HedgedRun

/-- Whatever is answered, free and asked for when, a hedged stream is sound in every state; when it is
asked in time, its requests are in flight no longer than the budget allows, and it gives up none
that was answered before the deadline. -/
theorem hedged_requests_sound {T : Type} (budget now : Nat) (events : List (HedgeEvent T))
    (state : HedgedRun T) :
    (Run (fun before event after => hedgeStep before event = some after) (.start budget now) events
        state → state.Sound budget) ∧
    (Run promptStep (.start budget now) events state →
      state.inFlight ≤ budget ∧
      (∀ attempt ∈ state.stream.active, ∀ time result, attempt.answer = some (time, result) →
        time = state.now) ∧
      ∀ drop ∈ state.dropped, ∀ time result, drop.1.answer = some (time, result) →
        drop.2 ≤ time) := by
  constructor
  · intro run
    exact run.invariant (fun _ _ _ sound taken => sound.step taken)
      (HedgedRun.sound_start budget now)
  · intro run
    have punctual : state.Punctual budget :=
      run.invariant (fun _ _ _ punctual taken => HedgedRun.Punctual.step punctual taken)
        ⟨HedgedRun.sound_start budget now, by simp [HedgedRun.start, HedgedStream.start],
          by simp [HedgedRun.start, HedgedStream.start], rfl, by simp [HedgedRun.start]⟩
    refine ⟨?_, punctual.fresh, punctual.unanswered⟩
    have spent := punctual.sound.spent
    rw [punctual.onTime] at spent
    omega

/-- Two sources are asked, and the first one that answers is taken at once. -/
def twoAsked : List (HedgeEvent Unit) :=
  let candidates : List (String × ChunkSlot) := [("a", .taken), ("b", .free), ("c", .free)]
  [.call, .select (.admission (.ok candidates) 1), .elapse 1,
    .select (.admission (.ok candidates) 1), .answer 0 (.ok ()), .select (.next 0)]

/-- The first source has no slot, then fails; the second one does not answer in time. -/
def slowSources : List (HedgeEvent Unit) :=
  [.call, .elapse 30, .select (.admission (.ok [("a", .free), ("b", .taken)]) 1), .elapse 4,
    .answer 0 (.error "failed"), .select (.next 0), .call, .elapse 30,
    .select (.admission (.ok [("a", .free), ("b", .free)]) 1), .elapse 6, .select .timer, .call,
    .close]

theorem hedged_requests_sound_sample :
    (∃ state, Run (fun before event after => hedgeStep before event = some after) (.start 10 0)
      twoAsked state ∧ state.Sound 10 ∧ state.launches.map Launch.source = ["b", "c"]) ∧
    ∃ state, Run promptStep (.start 10 0) slowSources state ∧ state.inFlight ≤ 10 ∧
      state.inFlight = 10 ∧ state.phase = .ended := by
  constructor
  · obtain ⟨state, run, asked⟩ := @Run.exists_of_foldlM _ _ hedgeStep (.start 10 0) twoAsked
      (fun state => state.launches.map Launch.source = ["b", "c"]) _ (by decide)
    exact ⟨state, run, (hedged_requests_sound 10 0 twoAsked state).1 run, asked⟩
  · obtain ⟨state, run, spent⟩ := @Run.exists_of_foldlM _ _
      (fun state event => if state.Prompt event then hedgeStep state event else none)
      (.start 10 0) slowSources
      (fun state : HedgedRun Unit => state.inFlight = 10 ∧ state.phase = .ended) _ (by decide)
    have prompt : Run promptStep (.start 10 0) slowSources state :=
      run.mono fun _ _ _ taken => (Option.ite_none_right_eq_some.mp taken).symm
    exact ⟨state, prompt, ((hedged_requests_sound 10 0 slowSources state).2 prompt).1, spent⟩

/-- Two requests are in flight when the caller takes the answer to the first one and stays away. -/
def lateCaller : List (HedgeEvent Unit) :=
  let candidates : List (String × ChunkSlot) := [("a", .free), ("b", .free)]
  [.call, .select (.admission (.ok candidates) 1), .elapse 1,
    .select (.admission (.ok candidates) 1), .answer 0 (.error "failed"), .select (.next 0),
    .elapse 4, .answer 0 (.ok ()), .elapse 95, .call]

/-- A caller that stays away keeps a request in flight beyond the budget, and then takes its answer;
or it loses the answer, although that came before the deadline. -/
theorem late_caller_overruns :
    (∃ state, Run (fun before event after => hedgeStep before event = some after) (.start 10 0)
      (lateCaller ++ [.select (.next 0)]) state ∧ 10 < state.inFlight ∧
      .timedOut ∉ state.yielded) ∧
    ∃ state, Run (fun before event after => hedgeStep before event = some after) (.start 10 0)
      (lateCaller ++ [.select .timer]) state ∧
      state.dropped = [(⟨"b", some (5, .ok ())⟩, 10)] := by
  constructor
  · exact @Run.exists_of_foldlM _ _ hedgeStep (.start 10 0) (lateCaller ++ [.select (.next 0)])
      (fun state => 10 < state.inFlight ∧ HedgedItem.timedOut ∉ state.yielded) _ (by decide)
  · exact @Run.exists_of_foldlM _ _ hedgeStep (.start 10 0) (lateCaller ++ [.select .timer])
      (fun state => state.dropped = [(⟨"b", some (5, .ok ())⟩, 10)]) _ (by decide)

end ArIoGateway
