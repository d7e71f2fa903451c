import ArIoGateway.Foundation.Runs
import ArIoGateway.Foundation.Octets
import ArIoGateway.Foundation.MachineWords
import Mathlib.Algebra.Order.BigOperators.Group.List

/-!
# A budget that responses share

Bodies of responses are read chunk by chunk, each up to its own limit.  All readers take what they
read from one counter, which they update one after another, and a chunk that is refused is taken
from the counter all the same.
-/

namespace ArIoGateway

inductive BodyStatus where
  | reading | failed | done
deriving DecidableEq

/-- A call of `read_response_body_with_limit`, with what it has accepted of the body. -/
structure BodyReader where
  limit : Nat
  body : Bytes
  status : BodyStatus
deriving DecidableEq

/-- The counter and the calls that share it. -/
structure SharedBudget where
  remaining : Nat
  readers : List BodyReader

/-- `saturating_sub`. -/
def saturatingSub (left right : Nat) : Nat := if right ≤ left then left - right else 0

/-- `saturating_add` of addressable sizes. -/
def saturatingLength (left right : Nat) : Nat := min (left + right) (wordBound - 1)

/-- Take the length of a chunk from the counter, and accept the chunk when it fits both what was
left and the limit. -/
def BodyReader.receive (reader : BodyReader) (remaining : Nat) (chunk : Bytes) : BodyReader :=
  if chunk.length ≤ remaining ∧ saturatingLength reader.body.length chunk.length ≤ reader.limit then
    { reader with body := reader.body ++ chunk }
  else { reader with status := .failed }

/-- What happens to the calls, in any order.  A call begins with the length that the response
announces and a value of the counter, which may be an old one.  A reader gets a chunk, fails or is
dropped, or comes to the end of its body. -/
inductive BodyAction where
  | call (limit : Nat) (contentLength : Option Nat) (observed : Nat)
  | chunk (reader : Nat) (bytes : Bytes)
  | fail (reader : Nat)
  | finish (reader : Nat)

namespace SharedBudget

def start (initial : Nat) : SharedBudget := ⟨initial, []⟩

/-- The reader at a place, while it reads. -/
def reading (state : SharedBudget) (place : Nat) : Option BodyReader :=
  state.readers[place]?.filter fun reader => reader.status = .reading

def step (state : SharedBudget) : BodyAction → Option SharedBudget
  | .call limit contentLength observed =>
      let status := if ∀ length ∈ contentLength, length ≤ min limit observed then BodyStatus.reading
        else .failed
      some { state with readers := state.readers ++ [⟨limit, [], status⟩] }
  | .chunk place bytes => do
      let reader ← state.reading place
      some {
        remaining := saturatingSub state.remaining bytes.length
        readers := state.readers.set place (reader.receive state.remaining bytes) }
  | .fail place => do
      let reader ← state.reading place
      some { state with readers := state.readers.set place { reader with status := .failed } }
  | .finish place => do
      let reader ← state.reading place
      some { state with readers := state.readers.set place { reader with status := .done } }

/-- The number of bytes that all calls have accepted. -/
def accepted (state : SharedBudget) : Nat :=
  (state.readers.map fun reader => reader.body.length).sum

/-- What holds of the calls in every state: what they have accepted and what is left make up no more
than the budget, and no body is longer than its limit. -/
structure Within (initial : Nat) (state : SharedBudget) : Prop where
  budget : state.accepted + state.remaining ≤ initial
  limits : ∀ reader ∈ state.readers, reader.body.length ≤ reader.limit

theorem within_start (initial : Nat) : Within initial (start initial) :=
  ⟨by simp [accepted, start], by simp [start]⟩

theorem reading_eq_some {state : SharedBudget} {place : Nat} {reader : BodyReader} :
    state.reading place = some reader ↔
      state.readers[place]? = some reader ∧ reader.status = .reading := by
  simp [reading, Option.filter_eq_some_iff]

/-- A reader that is replaced moves the number of accepted bytes by its own. -/
theorem accepted_set {state : SharedBudget} {place : Nat} {reader : BodyReader}
    (found : state.readers[place]? = some reader) (next : BodyReader) (remaining : Nat) :
    accepted ⟨remaining, state.readers.set place next⟩ + reader.body.length =
      state.accepted + next.body.length :=
  List.sum_map_set_add (fun reader : BodyReader => reader.body.length) found next

/-- A body does not grow beyond its limit while the budget is that of a word. -/
theorem receive_limit {reader : BodyReader} {remaining initial : Nat} {chunk : Bytes}
    (word : initial < wordBound) (budget : reader.body.length + remaining ≤ initial)
    (within : reader.body.length ≤ reader.limit) :
    (reader.receive remaining chunk).body.length ≤ (reader.receive remaining chunk).limit := by
  unfold BodyReader.receive
  split
  · next fits =>
      simp only [saturatingLength, List.length_append] at fits ⊢
      omega
  · exact within

/-- What a reader accepts is taken from the counter. -/
theorem receive_remaining (reader : BodyReader) (remaining : Nat) (chunk : Bytes) :
    (reader.receive remaining chunk).body.length + saturatingSub remaining chunk.length ≤
      reader.body.length + remaining := by
  unfold BodyReader.receive saturatingSub
  split
  · next fits =>
      simp only [List.length_append, if_pos fits.1]
      omega
  · split <;> simp only <;> omega

theorem Within.set {initial place : Nat} {state : SharedBudget} {reader next : BodyReader}
    {remaining : Nat} (within : Within initial state)
    (found : state.readers[place]? = some reader)
    (taken : next.body.length + remaining ≤ reader.body.length + state.remaining)
    (limit : next.body.length ≤ next.limit) :
    Within initial ⟨remaining, state.readers.set place next⟩ := by
  constructor
  · have moved := accepted_set found next remaining
    have budget := within.budget
    simp only
    omega
  · intro other member
    rcases List.mem_or_eq_of_mem_set member with old | rfl
    · exact within.limits other old
    · exact limit

/-- Every step keeps the budget and the limits. -/
theorem Within.step {initial : Nat} {before after : SharedBudget} {action : BodyAction}
    (word : initial < wordBound) (within : Within initial before)
    (taken : before.step action = some after) : Within initial after := by
  cases action with
  | call limit contentLength observed =>
      cases taken
      constructor
      · simpa [accepted] using within.budget
      · intro reader member
        rcases List.mem_append.mp member with old | new
        · exact within.limits reader old
        · obtain rfl := List.mem_singleton.mp new
          exact Nat.zero_le _
  | chunk place bytes =>
      obtain ⟨reader, found, same⟩ := Option.bind_eq_some_iff.mp taken
      obtain ⟨there, -⟩ := reading_eq_some.mp found
      cases same
      have own : reader.body.length ≤ before.accepted := by
        apply List.single_le_sum (fun _ _ => Nat.zero_le _)
        exact List.mem_map.mpr ⟨reader, List.mem_of_getElem? there, rfl⟩
      have budget := within.budget
      apply within.set there (receive_remaining reader before.remaining bytes)
      exact receive_limit word (by omega) (within.limits reader (List.mem_of_getElem? there))
  | fail place =>
      obtain ⟨reader, found, same⟩ := Option.bind_eq_some_iff.mp taken
      obtain ⟨there, -⟩ := reading_eq_some.mp found
      cases same
      exact within.set there le_rfl (within.limits reader (List.mem_of_getElem? there))
  | finish place =>
      obtain ⟨reader, found, same⟩ := Option.bind_eq_some_iff.mp taken
      obtain ⟨there, -⟩ := reading_eq_some.mp found
      cases same
      exact within.set there le_rfl (within.limits reader (List.mem_of_getElem? there))

/-- The counter only falls, and not by more than what was there. -/
theorem remaining_step {before after : SharedBudget} {action : BodyAction}
    (taken : before.step action = some after) : after.remaining ≤ before.remaining := by
  cases action with
  | call limit contentLength observed =>
      cases taken
      exact le_rfl
  | chunk place bytes =>
      obtain ⟨reader, -, same⟩ := Option.bind_eq_some_iff.mp taken
      cases same
      simp only [saturatingSub]
      split <;> omega
  | fail place =>
      obtain ⟨reader, -, same⟩ := Option.bind_eq_some_iff.mp taken
      cases same
      exact le_rfl
  | finish place =>
      obtain ⟨reader, -, same⟩ := Option.bind_eq_some_iff.mp taken
      cases same
      exact le_rfl

/-- What a step adds to the accepted bytes it takes from the counter. -/
theorem accepted_step {before after : SharedBudget} {action : BodyAction}
    (taken : before.step action = some after) :
    after.accepted + after.remaining ≤ before.accepted + before.remaining := by
  cases action with
  | call limit contentLength observed =>
      cases taken
      simp [accepted]
  | chunk place bytes =>
      obtain ⟨reader, found, same⟩ := Option.bind_eq_some_iff.mp taken
      obtain ⟨there, -⟩ := reading_eq_some.mp found
      cases same
      have moved := accepted_set there (reader.receive before.remaining bytes)
        (saturatingSub before.remaining bytes.length)
      have own := receive_remaining reader before.remaining bytes
      simp only
      omega
  | fail place =>
      obtain ⟨reader, found, same⟩ := Option.bind_eq_some_iff.mp taken
      obtain ⟨there, -⟩ := reading_eq_some.mp found
      cases same
      have moved := accepted_set there { reader with status := .failed } before.remaining
      simp only at moved ⊢
      omega
  | finish place =>
      obtain ⟨reader, found, same⟩ := Option.bind_eq_some_iff.mp taken
      obtain ⟨there, -⟩ := reading_eq_some.mp found
      cases same
      have moved := accepted_set there { reader with status := .done } before.remaining
      simp only at moved ⊢
      omega

end SharedBudget

/-- Whatever the calls read and however they fail, all of them together accept no more than the
budget, and none accepts more than its limit.  The counter only falls, by what is accepted or more,
so that it never goes below zero. -/
theorem shared_budget_kept {initial : Nat} (word : initial < wordBound) {actions : List BodyAction}
    {state : SharedBudget}
    (run : Run (fun before action after => before.step action = some after)
      (SharedBudget.start initial) actions state) :
    state.accepted ≤ initial ∧ state.accepted + state.remaining ≤ initial ∧
    (∀ reader ∈ state.readers, reader.body.length ≤ reader.limit) ∧
    ∀ action after, state.step action = some after → after.remaining ≤ state.remaining ∧
      after.accepted + after.remaining ≤ state.accepted + state.remaining := by
  have within : SharedBudget.Within initial state :=
    run.invariant (fun _ _ _ within taken => within.step word taken)
      (SharedBudget.within_start initial)
  have budget := within.budget
  exact ⟨by omega, budget, within.limits, fun action after taken =>
    ⟨SharedBudget.remaining_step taken, SharedBudget.accepted_step taken⟩⟩

/-- Of two bodies of seven bytes a budget of thirteen bytes pays for one. -/
theorem shared_budget_kept_sample :
    ∃ state, Run (fun before action after => before.step action = some after)
        (SharedBudget.start 13)
        [.call 14 none 13, .call 14 (some 7) 13, .chunk 1 (List.replicate 7 32),
          .chunk 0 (List.replicate 7 32), .finish 1] state ∧
      state.readers.map BodyReader.status = [.failed, .done] ∧ state.accepted ≤ 13 := by
  obtain ⟨state, run, statuses⟩ := @Run.exists_of_foldlM _ _ SharedBudget.step
    (SharedBudget.start 13)
    [.call 14 none 13, .call 14 (some 7) 13, .chunk 1 (List.replicate 7 32),
      .chunk 0 (List.replicate 7 32), .finish 1]
    (fun state => state.readers.map BodyReader.status = [.failed, .done]) _ (by decide)
  exact ⟨state, run, statuses, (shared_budget_kept (by decide) run).1⟩

end ArIoGateway
