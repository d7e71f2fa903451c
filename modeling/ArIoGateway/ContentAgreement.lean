import ArIoGateway.ContentViews
import ArIoGateway.Foundation.RangeReads
import ArIoGateway.StreamedReads

/-!
# Views agree

Whatever form a content has, its views and all ways to read it agree with the bytes that it stands
for.
-/

namespace ArIoGateway

open Octets Pieces Reads

namespace Awaited

variable {α β : Type}

/-- Whether an operation has come to a result. -/
def Returns (result : Awaited α) (value : α) : Prop :=
  result = (some (.ok value) : Option (Checked α))

@[simp] theorem returns_pure {value other : α} :
    (pure value : Awaited α).Returns other ↔ value = other := by
  constructor
  · intro same
    exact Except.ok.inj (Option.some.inj same)
  · rintro rfl
    rfl

@[simp] theorem returns_settled {result : Checked α} {value : α} :
    (settled result).Returns value ↔ result = .ok value :=
  ⟨fun same => Option.some.inj same, fun same => congrArg some same⟩

@[simp] theorem returns_throw {message : String} {value : α} :
    ¬(throw message : Awaited α).Returns value := fun same => by
  have wrong := Option.some.inj same
  cases wrong

@[simp] theorem returns_waiting {value : α} : ¬(waiting : Awaited α).Returns value := nofun

@[simp] theorem returns_bind {first : Awaited α} {second : α → Awaited β} {result : β} :
    (first >>= second).Returns result ↔
      ∃ value, first.Returns value ∧ (second value).Returns result := by
  have cases' : ∀ first : Option (Checked α),
      ((show Awaited α from first) >>= second).Returns result ↔
        ∃ value, first = some (.ok value) ∧ (second value).Returns result := by
    intro first
    cases first with
    | none => exact ⟨nofun, nofun⟩
    | some value =>
        cases value with
        | error message => exact ⟨fun same => (by cases Option.some.inj same), nofun⟩
        | ok value =>
            constructor
            · exact fun same => ⟨value, rfl, same⟩
            · rintro ⟨_, same, returned⟩
              obtain rfl := Except.ok.inj (Option.some.inj same)
              exact returned
  exact cases' first

end Awaited

def FileAnswer.isRead : FileAnswer → Bool
  | .read _ => true
  | _ => false

/-- What a file read returns is the part of the file. -/
theorem readExactAt_sound {file : Bytes} {answers : List FileAnswer} {offset length : Nat}
    {bytes : Bytes} (returned : (readExactAt file answers offset length).Returns bytes) :
    bytes = slice file offset length ∧ (length ≠ 0 → offset + length ≤ file.length) := by
  induction answers generalizing offset length bytes with
  | nil =>
      cases length with
      | zero =>
          rw [readExactAt, Awaited.returns_pure] at returned
          exact ⟨by simp [← returned, slice], by simp⟩
      | succ length => exact absurd returned Awaited.returns_waiting
  | cons answer answers induction =>
      cases length with
      | zero =>
          rw [readExactAt, Awaited.returns_pure] at returned
          exact ⟨by simp [← returned, slice], by simp⟩
      | succ length =>
          cases answer with
          | interrupted => exact induction returned
          | failed => exact absurd returned Awaited.returns_throw
          | read count =>
              rw [readExactAt] at returned
              dsimp only at returned
              split at returned
              · exact absurd returned (by simp)
              · next some =>
                  generalize taken : max 1 (min count (min (length + 1) (file.length - offset))) =
                    number at returned
                  have bound : number ≤ min (length + 1) (file.length - offset) := by omega
                  have positive : 0 < number := by omega
                  simp only [Awaited.returns_bind, Awaited.returns_pure] at returned
                  obtain ⟨rest, later, rfl⟩ := returned
                  obtain ⟨rfl, inside⟩ := induction later
                  constructor
                  · rw [← slice, ← slice_add, Nat.add_sub_cancel' (by omega)]
                  · intro _
                    by_cases last : length + 1 - number = 0
                    · omega
                    · have := inside last
                      omega

/-- A file read inside the file returns when the system does not fail and answers often enough. -/
theorem readExactAt_returns {file : Bytes} {answers : List FileAnswer} {offset length : Nat}
    (inside : offset + length ≤ file.length) (good : .failed ∉ answers)
    (enough : length ≤ answers.countP FileAnswer.isRead) :
    (readExactAt file answers offset length).Returns (slice file offset length) := by
  induction answers generalizing offset length with
  | nil =>
      obtain rfl : length = 0 := by simpa using enough
      simp [readExactAt, slice]
  | cons answer answers induction =>
      rw [List.mem_cons, not_or] at good
      cases length with
      | zero => simp [readExactAt, slice]
      | succ length =>
          cases answer with
          | interrupted =>
              rw [readExactAt]
              exact induction inside good.2 (by simpa [FileAnswer.isRead] using enough)
          | failed => exact absurd rfl good.1
          | read count =>
              rw [readExactAt]
              dsimp only
              rw [List.countP_cons_of_pos rfl] at enough
              generalize taken : max 1 (min count (min (length + 1) (file.length - offset))) = number
              have bound : number ≤ length + 1 := by omega
              have positive : 0 < number := by omega
              rw [if_neg (by omega)]
              simp only [Awaited.returns_bind, Awaited.returns_pure]
              refine ⟨_, induction (by omega) good.2 (by omega), ?_⟩
              rw [← slice, ← slice_add, Nat.add_sub_cancel' bound]

/-- An event without failures, with enough answers for a task when it is one. -/
def ReadEvent.Good : ReadEvent → Prop
  | .pending => True
  | .arrives answers => .failed ∉ answers ∧ ioChunkSize ≤ answers.countP FileAnswer.isRead

def ReadEvent.ready (event : ReadEvent) : Bool := event ≠ .pending

namespace ContentReader

/-- A reader that has some bytes still to deliver. -/
def Holds (reader : ContentReader) (left : Bytes) : Prop :=
  reader.remaining = left.length ∧
    match reader.state with
    | .memory bytes => left.length ≤ bytes.length ∧ left = bytes.drop (bytes.length - left.length)
    | .file file => file.consumed ≤ file.buffer.length ∧ ∃ width,
        left = file.buffer.drop file.consumed ++ slice file.storage file.offset width ∧
          file.offset + width ≤ file.storage.length
    | .reading file length => 0 < length ∧ length ≤ left.length ∧ length ≤ ioChunkSize ∧
        left = slice file.storage file.offset left.length ∧
          file.offset + left.length ≤ file.storage.length
    | .stream chunk pieces => left = (chunk :: pieces).flatten
    | .failed => False

/-- What a poll may do. -/
inductive Polled (left : Bytes) (room : Nat) (event : ReadEvent) :
    ContentReader × ContentPoll → Prop where
  | pending {after : ContentReader} (kept : after.Holds left)
      (waits : event.Good → event = .pending) : Polled left room event (after, .pending)
  | ready {after : ContentReader} (bytes rest : Bytes) (split : left = bytes ++ rest)
      (kept : after.Holds rest) (fits : bytes.length ≤ room)
      (some : room ≠ 0 → left ≠ [] → bytes ≠ []) : Polled left room event (after, .ready bytes)
  | failed {after : ContentReader} (message : String) (broken : after.state = .failed)
      (short : after.remaining ≠ 0) (bad : ¬event.Good) :
      Polled left room event (after, .failed message)

variable {left : Bytes} {room : Nat} {event : ReadEvent}

/-- Serving from a buffer that has bytes. -/
theorem serve_polled {file : ReaderFile} {width : Nat}
    (some : file.consumed < file.buffer.length)
    (split : left = file.buffer.drop file.consumed ++ slice file.storage file.offset width)
    (inside : file.offset + width ≤ file.storage.length) :
    Polled left room event (serve file left.length room) := by
  have buffered : (file.buffer.drop file.consumed).length =
      file.buffer.length - file.consumed := List.length_drop
  refine .ready ((file.buffer.drop file.consumed).take
      (min room (file.buffer.length - file.consumed)))
    (file.buffer.drop (file.consumed + min room (file.buffer.length - file.consumed)) ++
      slice file.storage file.offset width) ?_ ⟨?_, by simp only; omega, width, rfl, inside⟩ ?_ ?_
  · rw [← List.drop_drop, ← List.append_assoc, List.take_append_drop]
    exact split
  · have total := congrArg List.length split
    simp only [List.length_append, List.length_drop] at total ⊢
    omega
  · rw [List.length_take]
    omega
  · intro _ _
    rw [← List.length_pos_iff, List.length_take, buffered]
    omega

/-- Polling a task. -/
theorem pollTask_polled {file : ReaderFile} {length : Nat}
    (positive : 0 < length) (fits : length ≤ left.length) (small : length ≤ ioChunkSize)
    (rest : left = slice file.storage file.offset left.length)
    (inside : file.offset + left.length ≤ file.storage.length) :
    Polled left room event (pollTask file length left.length room event) := by
  cases event with
  | pending => exact .pending ⟨rfl, positive, fits, small, rest, inside⟩ fun _ => rfl
  | arrives answers =>
      rw [pollTask]
      have returns : ReadEvent.Good (.arrives answers) →
          (readExactAt file.storage answers file.offset length).Returns
            (slice file.storage file.offset length) := fun good =>
        readExactAt_returns (by omega) good.1 (small.trans good.2)
      cases result : readExactAt file.storage answers file.offset length with
      | none =>
          refine .pending ⟨rfl, positive, fits, small, rest, inside⟩ fun good => ?_
          have wrong := returns good
          rw [result] at wrong
          cases wrong
      | some result' =>
          cases result' with
          | error message =>
              refine .failed message rfl (by simp only; omega) fun good => ?_
              have wrong := returns good
              rw [result] at wrong
              cases Option.some.inj wrong
          | ok bytes =>
              obtain ⟨read, _⟩ := readExactAt_sound (show Awaited.Returns _ bytes from result)
              have width : bytes.length = length := by
                rw [read, length_slice (by omega)]
              dsimp only
              refine @serve_polled left room _ ⟨file.storage, file.offset + length, bytes, 0⟩
                (left.length - length) (by simp only; omega) ?_ (by simp only; omega)
              rw [List.drop_zero, read, ← slice_add, Nat.add_sub_cancel' fits]
              exact rest

/-- **Polls.**  A poll delivers the next bytes, up to its room, and none only when nothing is left
or it has no room; it waits only when what is behind it is not ready. -/
theorem poll_polled {reader : ContentReader} (holds : reader.Holds left) (room : Nat)
    (event : ReadEvent) : Polled left room event (reader.poll room event) := by
  obtain ⟨state, remaining⟩ := reader
  obtain ⟨rfl, holds⟩ := holds
  rw [poll]
  split
  · next closed =>
      refine .ready [] left rfl ⟨rfl, holds⟩ (Nat.zero_le _) fun open' some => ?_
      have empty : left.length = 0 := closed.resolve_left open'
      exact absurd (List.length_eq_zero_iff.mp empty) some
  · next open' =>
      rw [not_or] at open'
      have some : left ≠ [] := fun empty => open'.2 (by simp [empty])
      cases state with
      | memory bytes =>
          obtain ⟨fits, same⟩ := holds
          dsimp only
          have length := List.length_pos_iff.mpr some
          rw [← same]
          refine .ready _ (left.drop (min room left.length)) (List.take_append_drop _ _).symm
            ⟨by rw [List.length_drop], ?_, ?_⟩ ?_ fun _ _ => ?_
          · rw [List.length_drop]
            omega
          · rw [List.length_drop]
            have dropped := congrArg (List.drop (min room left.length)) same
            rw [List.drop_drop] at dropped
            refine dropped.trans ?_
            congr 1
            omega
          · rw [List.length_take]
            omega
          · rw [← List.length_pos_iff, List.length_take]
            omega
      | file file =>
          obtain ⟨consumed, width, split, inside⟩ := holds
          dsimp only
          split
          · next buffered => exact serve_polled buffered split inside
          · next empty =>
              have none : file.buffer.drop file.consumed = [] :=
                List.drop_eq_nil_of_le (Nat.not_lt.mp empty)
              rw [none, List.nil_append] at split
              have length : left.length = width := by
                rw [split, length_slice inside]
              have positive := List.length_pos_iff.mpr some
              have chunk : 0 < ioChunkSize := by decide
              exact pollTask_polled (by omega) (by omega) (by omega)
                (by rw [length]; exact split) (by rw [length]; exact inside)
      | reading file length =>
          obtain ⟨positive, fits, small, rest, inside⟩ := holds
          exact pollTask_polled positive fits small rest inside
      | stream chunk pieces =>
          dsimp only
          split
          · next waits => exact .pending ⟨rfl, holds⟩ fun _ => waits.2
          · have flat := flatten_fillBuf (chunk :: pieces)
            rw [← show left = _ from holds] at flat
            rcases fillBuf_cases (chunk :: pieces) with ⟨_, empty⟩ | ⟨byte, part, others, found⟩
            · exact absurd ((show left = _ from holds).trans empty) some
            · rw [found, List.flatten_cons] at flat
              rw [found]
              have cut := List.take_append_drop room (byte :: part)
              refine .ready _ ((byte :: part).drop room ++ others.flatten) ?_ ⟨?_, rfl⟩ ?_
                fun _ _ => ?_
              · rw [← List.append_assoc, cut, flat]
              · simp only [← flat, List.length_append, List.length_take, List.length_drop]
                omega
              · rw [List.length_take]
                omega
              · rw [← List.length_pos_iff, List.length_take, List.length_cons]
                omega
      | failed => exact holds.elim

theorem readExact_sound {events : List ReadEvent} {reader : ContentReader} {length : Nat}
    {bytes : Bytes} (holds : reader.Holds left)
    (returned : (readExact events reader length).Returns bytes) :
    length ≤ left.length ∧ bytes = left.take length := by
  induction events generalizing reader left length bytes with
  | nil =>
      cases length with
      | zero =>
          rw [readExact, Awaited.returns_pure] at returned
          exact ⟨Nat.zero_le _, by rw [← returned, List.take_zero]⟩
      | succ length => exact absurd returned Awaited.returns_waiting
  | cons event events induction =>
      cases length with
      | zero =>
          rw [readExact, Awaited.returns_pure] at returned
          exact ⟨Nat.zero_le _, by rw [← returned, List.take_zero]⟩
      | succ length =>
          rw [readExact] at returned
          have polled := poll_polled holds (length + 1) event
          generalize reader.poll (length + 1) event = result at polled returned
          cases polled with
          | pending kept _ => exact induction kept returned
          | failed message _ _ _ => exact absurd returned Awaited.returns_throw
          | ready piece rest split kept fits _ =>
              dsimp only at returned
              split at returned
              · exact absurd returned (by simp)
              · simp only [Awaited.returns_bind, Awaited.returns_pure] at returned
                obtain ⟨others, later, rfl⟩ := returned
                obtain ⟨enough, rfl⟩ := induction kept later
                rw [split, List.length_append, List.take_append, List.take_of_length_le fits]
                exact ⟨by omega, rfl⟩

theorem readExact_returns {events : List ReadEvent} {reader : ContentReader} {length : Nat}
    (holds : reader.Holds left) (inside : length ≤ left.length)
    (good : ∀ event ∈ events, event.Good) (enough : length ≤ events.countP ReadEvent.ready) :
    (readExact events reader length).Returns (left.take length) := by
  induction events generalizing reader left length with
  | nil =>
      obtain rfl : length = 0 := by simpa using enough
      simp [readExact]
  | cons event events induction =>
      obtain ⟨first, others⟩ := List.forall_mem_cons.mp good
      cases length with
      | zero => simp [readExact]
      | succ length =>
          rw [readExact]
          have polled := poll_polled holds (length + 1) event
          generalize reader.poll (length + 1) event = result at polled ⊢
          cases polled with
          | pending kept waits =>
              have idle : event.ready = false := by simp [ReadEvent.ready, waits first]
              rw [List.countP_cons_of_neg (by simp [idle])] at enough
              exact induction kept inside others enough
          | failed message _ _ bad => exact absurd first bad
          | ready piece rest split kept fits some =>
              have more : piece ≠ [] := some (by omega) (List.ne_nil_of_length_pos (by omega))
              have positive := List.length_pos_iff.mpr more
              have total := congrArg List.length split
              rw [List.length_append] at total
              rw [List.countP_cons] at enough
              dsimp only
              rw [if_neg more]
              simp only [Awaited.returns_bind, Awaited.returns_pure]
              refine ⟨_, induction kept (by omega) others (by split at enough <;> omega), ?_⟩
              rw [split, List.take_append, List.take_of_length_le fits]

section Loops

variable {σ : Type} {take : σ → Bytes → Checked σ}

/-- A loop takes what is left, in some pieces. -/
theorem consume_sound {events : List ReadEvent} {reader : ContentReader} {state final : σ}
    (holds : reader.Holds left) (open' : room ≠ 0 ∨ left = [])
    (returned : (consume take room events reader state).Returns final) :
    ∃ pieces : List Bytes, pieces.flatten = left ∧ pieces.foldlM take state = .ok final := by
  induction events generalizing reader left state with
  | nil => exact absurd returned Awaited.returns_waiting
  | cons event events induction =>
      rw [consume] at returned
      have polled := poll_polled holds room event
      generalize reader.poll room event = result at polled returned
      cases polled with
      | pending kept _ => exact induction kept open' returned
      | failed message _ _ _ => exact absurd returned Awaited.returns_throw
      | ready piece rest split kept fits some =>
          dsimp only at returned
          split at returned
          · next none =>
              obtain rfl := Awaited.returns_pure.mp returned
              refine ⟨[], ?_, rfl⟩
              by_contra more
              exact some (open'.resolve_right (Ne.symm more)) (Ne.symm more) none
          · simp only [Awaited.returns_bind, Awaited.returns_settled] at returned
            obtain ⟨next, taken, later⟩ := returned
            have last : room ≠ 0 ∨ rest = [] := open'.imp_right fun empty => by
              rw [split] at empty
              exact (List.append_eq_nil_iff.mp empty).2
            obtain ⟨pieces, flat, folded⟩ := induction kept last later
            refine ⟨piece :: pieces, by rw [List.flatten_cons, flat, split], ?_⟩
            rw [List.foldlM_cons, taken]
            exact folded

/-- A loop that takes every part of what is left comes to an end. -/
theorem consume_returns {events : List ReadEvent} {reader : ContentReader} {state : σ}
    (holds : reader.Holds left) (open' : room ≠ 0 ∨ left = [])
    (accepts : ∀ pieces : List Bytes, pieces.flatten <+: left →
      ∃ final, pieces.foldlM take state = .ok final)
    (good : ∀ event ∈ events, event.Good)
    (enough : left.length + 1 ≤ events.countP ReadEvent.ready) :
    ∃ final, (consume take room events reader state).Returns final := by
  induction events generalizing reader left state with
  | nil => simp at enough
  | cons event events induction =>
      obtain ⟨first, others⟩ := List.forall_mem_cons.mp good
      rw [consume]
      have polled := poll_polled holds room event
      generalize reader.poll room event = result at polled ⊢
      cases polled with
      | pending kept waits =>
          have idle : event.ready = false := by simp [ReadEvent.ready, waits first]
          rw [List.countP_cons_of_neg (by simp [idle])] at enough
          exact induction kept open' accepts others enough
      | failed message _ _ bad => exact absurd first bad
      | ready piece rest split kept fits some =>
          dsimp only
          by_cases none : piece = []
          · rw [if_pos none]
            exact ⟨state, Awaited.returns_pure.mpr rfl⟩
          · rw [if_neg none]
            have positive := List.length_pos_iff.mpr none
            have total := congrArg List.length split
            rw [List.length_append] at total
            rw [List.countP_cons] at enough
            obtain ⟨next, taken⟩ := accepts [piece] (by simp [split])
            rw [List.foldlM_cons] at taken
            obtain ⟨_, taken, _⟩ := Checked.bind_eq_ok.mp taken
            have last : room ≠ 0 ∨ rest = [] := open'.imp_right fun empty => by
              rw [split] at empty
              exact (List.append_eq_nil_iff.mp empty).2
            obtain ⟨final, returned⟩ := induction kept last (fun pieces begins => by
              obtain ⟨final, folded⟩ := accepts (piece :: pieces) (by
                rw [List.flatten_cons, split]
                exact List.prefix_append_right_inj piece |>.mpr begins)
              rw [List.foldlM_cons, taken] at folded
              exact ⟨final, folded⟩) others (by split at enough <;> omega)
            refine ⟨final, ?_⟩
            simp only [Awaited.returns_bind, Awaited.returns_settled]
            exact ⟨_, taken, returned⟩

end Loops

theorem poll_failed {reader : ContentReader} (broken : reader.state = .failed)
    (short : reader.remaining ≠ 0) (room : Nat) (event : ReadEvent) :
    ∃ result, reader.poll room event = (reader, result) ∧ result.bytes = [] ∧
      (room ≠ 0 → result = .failed "content reader unavailable") := by
  rw [poll]
  by_cases closed : room = 0
  · exact ⟨.ready [], by rw [if_pos (.inl closed)], rfl, fun some => absurd closed some⟩
  · rw [if_neg (not_or.mpr ⟨closed, short⟩), broken]
    exact ⟨_, rfl, rfl, fun _ => rfl⟩

/-- A reader that failed delivers nothing any more. -/
theorem pollAll_failed {reader : ContentReader} (broken : reader.state = .failed)
    (short : reader.remaining ≠ 0) (polls : List (Nat × ReadEvent)) :
    (pollAll polls reader).1.flatMap ContentPoll.bytes = [] ∧
      (pollAll polls reader).2 = reader := by
  induction polls with
  | nil => exact ⟨rfl, rfl⟩
  | cons next polls induction =>
      obtain ⟨result, polled, none, _⟩ := poll_failed broken short next.1 next.2
      rw [pollAll, polled]
      exact ⟨by rw [List.flatMap_cons, none, induction.1]; rfl, induction.2⟩

/-- What polls deliver and what a reader has left is what it had left before, unless it met a
failure and delivers nothing any more. -/
theorem pollAll_holds {polls : List (Nat × ReadEvent)} {reader : ContentReader}
    (holds : reader.Holds left) :
    ∃ rest, left = (pollAll polls reader).1.flatMap ContentPoll.bytes ++ rest ∧
      ((pollAll polls reader).2.Holds rest ∨
        (pollAll polls reader).2.state = .failed ∧ (pollAll polls reader).2.remaining ≠ 0 ∧
          ∃ next ∈ polls, ¬next.2.Good) := by
  induction polls generalizing reader left with
  | nil => exact ⟨left, rfl, .inl holds⟩
  | cons next polls induction =>
      rw [pollAll]
      have polled := poll_polled holds next.1 next.2
      generalize reader.poll next.1 next.2 = result at polled ⊢
      cases polled with
      | pending kept _ =>
          obtain ⟨rest, split, ends⟩ := induction kept
          exact ⟨rest, split, ends.imp_right fun ⟨broken, short, other, member, bad⟩ =>
            ⟨broken, short, other, List.mem_cons_of_mem _ member, bad⟩⟩
      | ready bytes others split kept _ _ =>
          obtain ⟨rest, later, ends⟩ := induction kept
          refine ⟨rest, ?_, ends.imp_right fun ⟨broken, short, other, member, bad⟩ =>
            ⟨broken, short, other, List.mem_cons_of_mem _ member, bad⟩⟩
          rw [split, later, List.flatMap_cons, List.append_assoc]
          rfl
      | @failed after message broken short bad =>
          obtain ⟨none, same⟩ := pollAll_failed broken short polls
          have still : (pollAll polls after).2.state = .failed ∧
              (pollAll polls after).2.remaining ≠ 0 := by
            rw [same]
            exact ⟨broken, short⟩
          refine ⟨left, ?_, .inr ⟨still.1, still.2, next, List.mem_cons_self, bad⟩⟩
          rw [List.flatMap_cons, none]
          rfl

/-- A reader that is polled often enough, with room and without failures, delivers all it has. -/
theorem pollAll_complete {polls : List (Nat × ReadEvent)} {reader : ContentReader}
    (holds : reader.Holds left) (good : ∀ next ∈ polls, next.1 ≠ 0 ∧ next.2.Good)
    (enough : left.length ≤ polls.countP fun next => next.2.ready) :
    (pollAll polls reader).1.flatMap ContentPoll.bytes = left := by
  induction polls generalizing reader left with
  | nil =>
      have empty : left.length = 0 := by simpa using enough
      exact (List.length_eq_zero_iff.mp empty).symm
  | cons next polls induction =>
      obtain ⟨first, others⟩ := List.forall_mem_cons.mp good
      rw [pollAll]
      have polled := poll_polled holds next.1 next.2
      generalize reader.poll next.1 next.2 = result at polled ⊢
      cases polled with
      | pending kept waits =>
          have idle : next.2.ready = false := by simp [ReadEvent.ready, waits first.2]
          rw [List.countP_cons_of_neg (by simp [idle])] at enough
          exact induction kept others enough
      | failed message _ _ bad => exact absurd first.2 bad
      | ready bytes rest split kept _ some =>
          rw [List.countP_cons] at enough
          have total := congrArg List.length split
          rw [List.length_append] at total
          have few : rest.length ≤ polls.countP fun next => next.2.ready := by
            by_cases empty : left = []
            · rw [empty, List.length_nil] at total
              omega
            · have positive := List.length_pos_iff.mpr (some first.1 empty)
              split at enough <;> omega
          rw [List.flatMap_cons, induction kept others few, split]
          rfl

/-- A poll with room puts out nothing only at the end. -/
theorem pollAll_end {polls : List (Nat × ReadEvent)} {reader : ContentReader}
    (holds : reader.Holds left) {room : Nat} (open' : room ≠ 0) {event : ReadEvent}
    (ended : ((pollAll polls reader).2.poll room event).2 = .ready []) :
    (pollAll polls reader).1.flatMap ContentPoll.bytes = left := by
  obtain ⟨rest, split, kept | ⟨broken, short, _⟩⟩ := @pollAll_holds left polls reader holds
  · have polled := poll_polled kept room event
    generalize (pollAll polls reader).2.poll room event = result at polled ended
    cases polled with
    | pending _ _ => cases ended
    | failed _ _ _ _ => cases ended
    | ready bytes others _ _ _ some =>
        have none : bytes = [] := ContentPoll.ready.inj ended
        have ended : rest = [] := by
          by_contra more
          exact some open' more none
        rw [ended, List.append_nil] at split
        exact split.symm
  · obtain ⟨result, same, _, failed⟩ := poll_failed broken short room event
    rw [same, failed open'] at ended
    cases ended

end ContentReader

theorem filePieces_sound {storage : Bytes} {offset len start : Nat}
    {answers : List (List FileAnswer)} {pieces : List Bytes}
    (returned : (Content.filePieces storage offset len start answers).Returns pieces) :
    pieces.flatten = slice storage (offset + start) (len - start) := by
  induction answers generalizing start pieces with
  | nil =>
      rw [Content.filePieces] at returned
      split at returned
      · exact absurd returned Awaited.returns_waiting
      · next ended =>
          rw [← Awaited.returns_pure.mp returned, Nat.sub_eq_zero_of_le (Nat.not_lt.mp ended)]
          rfl
  | cons answer answers induction =>
      rw [Content.filePieces] at returned
      split at returned
      · simp only [Awaited.returns_bind, Awaited.returns_settled, Awaited.returns_pure,
          Checked.context_eq_ok, Word.add_eq_some] at returned
        obtain ⟨_, ⟨_, rfl⟩, piece, read, rest, later, rfl⟩ := returned
        rw [List.flatten_cons, induction later, (readExactAt_sound read).1]
        by_cases last : len - start ≤ ioChunkSize
        · rw [Nat.min_eq_right last, Nat.sub_eq_zero_of_le (by omega : len ≤ start + ioChunkSize)]
          simp [slice]
        · rw [Nat.min_eq_left (by omega), ← Nat.add_assoc, ← slice_add,
            show ioChunkSize + (len - (start + ioChunkSize)) = len - start by omega]
      · next ended =>
          rw [← Awaited.returns_pure.mp returned, Nat.sub_eq_zero_of_le (Nat.not_lt.mp ended)]
          rfl

theorem filePieces_returns {storage : Bytes} {offset len start : Nat}
    {answers : List (List FileAnswer)} (inside : offset + len ≤ storage.length)
    (word : storage.length < wordBound)
    (good : ∀ answer ∈ answers, .failed ∉ answer ∧ ioChunkSize ≤ answer.countP FileAnswer.isRead)
    (enough : len - start ≤ answers.length * ioChunkSize) :
    ∃ pieces, (Content.filePieces storage offset len start answers).Returns pieces := by
  induction answers generalizing start with
  | nil =>
      rw [Content.filePieces, if_neg (by simp at enough; omega)]
      exact ⟨[], Awaited.returns_pure.mpr rfl⟩
  | cons answer answers induction =>
      obtain ⟨first, others⟩ := List.forall_mem_cons.mp good
      rw [Content.filePieces]
      by_cases more : start < len
      · rw [if_pos more]
        rw [List.length_cons, Nat.succ_mul] at enough
        obtain ⟨pieces, later⟩ := @induction (start + ioChunkSize) others (by omega)
        refine ⟨slice storage (offset + start) (min ioChunkSize (len - start)) :: pieces, ?_⟩
        simp only [Awaited.returns_bind, Awaited.returns_settled, Awaited.returns_pure,
          Checked.context_eq_ok, Word.add_eq_some]
        exact ⟨_, ⟨by omega, rfl⟩, _, readExactAt_returns (by omega) first.1
          ((Nat.min_le_left _ _).trans first.2), _, later, rfl⟩
      · rw [if_neg more]
        exact ⟨[], Awaited.returns_pure.mpr rfl⟩

namespace ContentWriter

/-- A writer that has taken some bytes. -/
def Wrote (writer : ContentWriter) (bytes : Bytes) : Prop :=
  writer.written = bytes.length ∧ writer.hashed = bytes ∧
    (writer.storage = .memory bytes ∨
      ∃ reservation, writer.storage = .file (some ⟨reservation, bytes⟩))

variable {writer after : ContentWriter} {bytes more : Bytes}

theorem writeChunk_eq (wrote : writer.Wrote bytes) (chunk : Bytes) :
    ∃ after, writer.writeChunk chunk = .ok after ∧ after.Wrote (bytes ++ chunk) ∧
      after.expectedLen = writer.expectedLen := by
  obtain ⟨written, hashed, stored⟩ := wrote
  rcases stored with stored | ⟨reservation, stored⟩
  · exact ⟨writer.advance (.memory (bytes ++ chunk)) chunk, by rw [writeChunk, stored],
      ⟨by simp [advance, written], by simp [advance, hashed], .inl rfl⟩, rfl⟩
  · exact ⟨writer.advance (.file (some ⟨reservation, bytes ++ chunk⟩)) chunk,
      by rw [writeChunk, stored]; rfl,
      ⟨by simp [advance, written], by simp [advance, hashed], .inr ⟨reservation, rfl⟩⟩, rfl⟩

theorem writeChunks_eq (wrote : writer.Wrote bytes) (chunks : List Bytes) :
    ∃ after, chunks.foldlM writeChunk writer = .ok after ∧ after.Wrote (bytes ++ chunks.flatten) ∧
      after.expectedLen = writer.expectedLen := by
  induction chunks generalizing writer bytes with
  | nil => exact ⟨writer, rfl, by simpa using wrote, rfl⟩
  | cons chunk chunks induction =>
      obtain ⟨next, written, holds, same⟩ := writeChunk_eq wrote chunk
      obtain ⟨after, folded, ends, kept⟩ := induction holds
      refine ⟨after, by rw [List.foldlM_cons, written]; exact folded, ?_, kept.trans same⟩
      rw [List.flatten_cons, ← List.append_assoc]
      exact ends

/-- A write that fits takes the bytes. -/
theorem write_eq (wrote : writer.Wrote bytes)
    (fits : bytes.length + more.length ≤ writer.expectedLen) :
    ∃ after, writer.write more = .ok after ∧ after.Wrote (bytes ++ more) ∧
      after.expectedLen = writer.expectedLen := by
  obtain ⟨after, folded, ends, same⟩ := writeChunks_eq wrote (Batches.chunks ioChunkSize more)
  rw [Batches.flatten_chunks (by decide)] at ends
  refine ⟨after, ?_, ends, same⟩
  rw [write, Checked.ensure_of (by rw [wrote.1]; omega)]
  exact folded

theorem of_write (wrote : writer.Wrote bytes) (written : writer.write more = .ok after) :
    after.Wrote (bytes ++ more) ∧ after.expectedLen = writer.expectedLen := by
  obtain ⟨_, fits, folded⟩ := Checked.bind_eq_ok.mp written
  obtain ⟨other, chunked, ends, same⟩ := writeChunks_eq wrote (Batches.chunks ioChunkSize more)
  obtain rfl := Except.ok.inj (chunked.symm.trans folded)
  rw [Batches.flatten_chunks (by decide)] at ends
  exact ⟨ends, same⟩

theorem of_writes {pieces : List Bytes} (wrote : writer.Wrote bytes)
    (written : pieces.foldlM write writer = .ok after) :
    after.Wrote (bytes ++ pieces.flatten) ∧ after.expectedLen = writer.expectedLen := by
  induction pieces generalizing writer bytes with
  | nil =>
      obtain rfl := Except.ok.inj written
      exact ⟨by simpa using wrote, rfl⟩
  | cons piece pieces induction =>
      rw [List.foldlM_cons] at written
      obtain ⟨next, first, rest⟩ := Checked.bind_eq_ok.mp written
      obtain ⟨holds, same⟩ := of_write wrote first
      obtain ⟨ends, kept⟩ := induction holds rest
      rw [List.flatten_cons, ← List.append_assoc]
      exact ⟨ends, kept.trans same⟩

theorem writes_eq {pieces : List Bytes} (wrote : writer.Wrote bytes)
    (fits : bytes.length + pieces.flatten.length ≤ writer.expectedLen) :
    ∃ after, pieces.foldlM write writer = .ok after := by
  induction pieces generalizing writer bytes with
  | nil => exact ⟨writer, rfl⟩
  | cons piece pieces induction =>
      rw [List.flatten_cons, List.length_append] at fits
      obtain ⟨next, first, holds, same⟩ := @write_eq writer bytes piece wrote (by omega)
      obtain ⟨after, folded⟩ := induction holds (by rw [List.length_append, same]; omega)
      exact ⟨after, by rw [List.foldlM_cons, first]; exact folded⟩

theorem wrote_create {expectedLen memoryLimit : Nat} {reserved : Bool}
    (created : create expectedLen memoryLimit reserved = .ok writer) :
    writer.Wrote [] ∧ writer.expectedLen = expectedLen := by
  rw [create] at created
  split at created
  · obtain rfl := Except.ok.inj created
    exact ⟨⟨rfl, rfl, .inl rfl⟩, rfl⟩
  · split at created
    · obtain rfl := Except.ok.inj created
      exact ⟨⟨rfl, rfl, .inr ⟨_, rfl⟩⟩, rfl⟩
    · cases created

theorem close_eq (suite : HashSuite) (wrote : writer.Wrote bytes)
    (whole : writer.expectedLen = bytes.length) :
    ∃ content, writer.close suite = .ok (content, suite.sha256 [bytes]) ∧
      (content = .memory bytes ∨ content = .file bytes 0 bytes.length) := by
  obtain ⟨written, hashed, stored⟩ := wrote
  rw [close, Checked.ensure_of (written.trans whole.symm), hashed]
  rcases stored with stored | ⟨reservation, stored⟩
  · exact ⟨.memory bytes, by rw [stored]; rfl, .inl rfl⟩
  · exact ⟨.file bytes 0 bytes.length, by rw [stored, whole]; rfl, .inr rfl⟩

end ContentWriter

/-! ## Contents and the bytes they stand for -/

/-- Encoded text comes in parts that make it up. -/
def ReadSurroundings.Lawful (around : ReadSurroundings) : Prop :=
  ∀ text, (around.buffers text).flatten = text

namespace Content

variable {around : ReadSurroundings} {content : Content} {bytes : Bytes}

/-- The bytes that a content stands for. -/
def Represents (around : ReadSurroundings) (content : Content) (bytes : Bytes) : Prop :=
  match content with
  | .memory stored => bytes = stored ∧ stored.length < wordBound
  | .file storage offset len => bytes = Reads.slice storage offset len ∧
      offset + len ≤ storage.length ∧ storage.length < wordBound
  | .stream source offset len => ∃ chunks, Serves source chunks ∧
      (∀ chunk ∈ around.cached, chunk.Holds chunks) ∧
      bytes = Reads.slice chunks.flatten offset len ∧ offset + len ≤ chunks.flatten.length ∧
      chunks.flatten.length < wordBound
  | .base64 source offset len => ∃ encoded decoded, ScanOf encoded decoded source ∧
      bytes = Reads.slice decoded offset len ∧ offset + len ≤ decoded.length ∧
      decoded.length < wordBound

/-- The stream that reads a range ahead has been taken to its end by steps in some order. -/
def Delivers (around : ReadSurroundings) : Content → Prop
  | .stream source offset len => ∃ width start actions state, 0 < width ∧
      source.readAhead around.cached offset len = .ok start ∧
      Run (fun before action next => before.step source width (offset + len) action = some next)
        start actions state ∧
      state.position = offset + len ∧ around.delivered = state.output
  | _ => True

theorem len_eq (represents : content.Represents around bytes) : content.len = bytes.length := by
  cases content with
  | memory stored => exact congrArg List.length represents.1.symm
  | file storage offset len => rw [represents.1, length_slice represents.2.1, Content.len]
  | stream source offset len =>
      obtain ⟨_, _, _, rfl, inside, _⟩ := represents
      rw [length_slice inside, Content.len]
  | base64 source offset len =>
      obtain ⟨_, _, _, rfl, inside, _⟩ := represents
      rw [length_slice inside, Content.len]

theorem length_lt (represents : content.Represents around bytes) : bytes.length < wordBound := by
  have length := len_eq represents
  cases content with
  | memory stored => exact represents.1 ▸ represents.2
  | file storage offset len =>
      obtain ⟨_, inside, word⟩ := represents
      rw [Content.len] at length
      omega
  | stream source offset len =>
      obtain ⟨chunks, _, _, _, inside, word⟩ := represents
      rw [Content.len] at length
      omega
  | base64 source offset len =>
      obtain ⟨_, _, _, _, inside, word⟩ := represents
      rw [Content.len] at length
      omega

/-- A window into a window. -/
theorem window_slice {whole : Bytes} {offset len start finish : Nat} (ordered : start ≤ finish)
    (inside : finish ≤ len) (within : offset + len ≤ whole.length)
    (word : whole.length < wordBound) :
    Word.add offset start = some (offset + start) ∧
      Reads.slice (Reads.slice whole offset len) start (finish - start) =
        Reads.slice whole (offset + start) (finish - start) ∧
      offset + start + (finish - start) ≤ whole.length :=
  ⟨Word.add_of_lt (by omega), slice_slice (by omega), by omega⟩

/-- A slice within bounds stands for the slice of the bytes. -/
theorem slice_eq (represents : content.Represents around bytes) {start finish : Nat}
    (ordered : start ≤ finish) (inside : finish ≤ bytes.length) :
    ∃ view, content.slice start finish = .ok view ∧
      view.Represents around (Reads.slice bytes start (finish - start)) := by
  rw [← len_eq represents] at inside
  have bound : start ≤ finish ∧ finish ≤ content.len := ⟨ordered, inside⟩
  rw [Content.slice.eq_def, Checked.ensure_of bound]
  cases content with
  | memory stored =>
      obtain ⟨rfl, word⟩ := represents
      refine ⟨_, rfl, rfl, lt_of_le_of_lt ?_ word⟩
      rw [List.length_take, List.length_drop]
      omega
  | file storage offset len =>
      obtain ⟨rfl, within, word⟩ := represents
      obtain ⟨sum, part, fits⟩ := window_slice ordered inside within word
      exact ⟨.file storage (offset + start) (finish - start), by simp only [sum]; rfl, part, fits,
        word⟩
  | stream source offset len =>
      obtain ⟨chunks, serves, cached, rfl, within, word⟩ := represents
      obtain ⟨sum, part, fits⟩ := window_slice ordered inside within word
      exact ⟨.stream source (offset + start) (finish - start), by simp only [sum]; rfl, chunks,
        serves, cached, part, fits, word⟩
  | base64 source offset len =>
      obtain ⟨encoded, decoded, scan, rfl, within, word⟩ := represents
      obtain ⟨sum, part, fits⟩ := window_slice ordered inside within word
      exact ⟨.base64 source (offset + start) (finish - start), by simp only [sum]; rfl, encoded,
        decoded, scan, part, fits, word⟩

/-- A slice out of bounds fails. -/
theorem slice_outside (represents : content.Represents around bytes) {start finish : Nat}
    (outside : ¬(start ≤ finish ∧ finish ≤ bytes.length)) :
    content.slice start finish = .error "content slice is out of bounds" := by
  rw [← len_eq represents] at outside
  rw [Content.slice.eq_def, Checked.ensure, if_neg outside]
  rfl

theorem delivered_eq {source : ChunkSource} {offset len : Nat}
    (represents : (Content.stream source offset len).Represents around bytes)
    (delivers : (Content.stream source offset len).Delivers around) :
    around.delivered.flatten = bytes := by
  obtain ⟨chunks, serves, cached, rfl, within, word⟩ := represents
  obtain ⟨width, start, actions, state, positive, begun, run, ended, delivered⟩ := delivers
  have range : source.rangeEnd offset len = .ok (offset + len) := by
    have fits : offset + len ≤ source.geometry.dataSize := serves.size ▸ within
    simp [ChunkSource.rangeEnd, Word.add_of_lt (within.trans_lt word), Checked.context,
      Checked.ensure_of fits, pure, Except.pure]
  have streams : Streams chunks offset (offset + len) start := by
    rw [ChunkSource.readAhead, range, Checked.ok_bind] at begun
    rw [← Except.ok.inj begun]
    exact Streams.start serves.bounded cached (Nat.le_add_right offset len) within
      (apart_of_strides maxChunkSize offset (offset + len))
      fun position member => mem_strides maxChunkSize_pos member
  have last : Streams chunks offset (offset + len) state :=
    run.invariant (fun before action next holds taken =>
      (holds.step serves within (within.trans_lt word) taken).1) streams
  rw [delivered, last.output, ended, Nat.add_sub_cancel_left, Reads.slice]

/-- A reader of a content has its bytes to deliver. -/
theorem reader_eq (lawful : around.Lawful) (represents : content.Represents around bytes)
    (delivers : content.Delivers around) :
    ∃ reader, content.reader around = .ok reader ∧ reader.Holds bytes := by
  have length := len_eq represents
  cases content with
  | memory stored =>
      obtain ⟨rfl, word⟩ := represents
      exact ⟨_, rfl, rfl, le_rfl, by simp⟩
  | file storage offset len =>
      obtain ⟨same, within, word⟩ := represents
      exact ⟨_, rfl, length, le_rfl, len, by simpa using same, within⟩
  | stream source offset len =>
      have flat := delivered_eq represents delivers
      exact ⟨_, rfl, length, by simpa using flat.symm⟩
  | base64 source offset len =>
      obtain ⟨encoded, decoded, scan, same, within, word⟩ := represents
      obtain ⟨pieces, streamed, flat⟩ := stream_eq scan lawful within
      refine ⟨⟨.stream [] pieces, len⟩, ?_, length, ?_⟩
      · rw [Content.reader, streamed]
      · exact same.trans flat.symm

/-- `read_at` of a stream. -/
theorem stream_readAt {source : ChunkSource} {offset len : Nat}
    (represents : (Content.stream source offset len).Represents around bytes) :
    ∃ after, source.readAt ⟨around.cached, []⟩ offset len = .ok (bytes, after) := by
  obtain ⟨chunks, serves, cached, rfl, within, word⟩ := represents
  have range : source.rangeEnd offset len = .ok (offset + len) := by
    have fits : offset + len ≤ source.geometry.dataSize := serves.size ▸ within
    simp [ChunkSource.rangeEnd, Word.add_of_lt (within.trans_lt word), Checked.context,
      Checked.ensure_of fits, pure, Except.pure]
  have itinerary : Itinerary chunks (offset + len) offset
      (ChunkCache.mk around.cached []).fetched [] :=
    ⟨List.nodup_nil, .nil, by simp, by simp, by simp, by simp⟩
  have holds : (ChunkCache.mk around.cached []).Holds chunks := cached
  obtain ⟨after, read, _⟩ := ChunkSource.readLoop_eq serves within (within.trans_lt word)
    (Nat.le_add_right offset len) holds itinerary
  refine ⟨after, ?_⟩
  rw [ChunkSource.readAt, range, Checked.ok_bind, read, Nat.add_sub_cancel_left, Reads.slice]

/-- A view is read as it is, or through a reader. -/
theorem readView_cases {view : Content} {events : List ReadEvent} {length : Nat} {part : Bytes}
    (lawful : around.Lawful) (represents : view.Represents around part)
    (size : part.length = length) :
    view.readView around events length = pure part ∨
      ∃ reader : ContentReader, reader.Holds part ∧
        view.readView around events length = reader.readExact events length := by
  have empty : length = 0 → part = [] := fun none => List.length_eq_zero_iff.mp (size.trans none)
  cases view with
  | memory stored => exact .inl (by rw [readView, represents.1])
  | stream source start len =>
      obtain ⟨after, read⟩ := stream_readAt represents
      refine .inl ?_
      rw [readView, read]
      rfl
  | file storage start len =>
      obtain ⟨reader, opened, holds⟩ := reader_eq lawful represents trivial
      rw [readView.eq_def]
      dsimp only
      split
      · next none => exact .inl (by rw [empty none])
      · exact .inr ⟨reader, holds, by rw [opened]; rfl⟩
  | base64 source start len =>
      obtain ⟨reader, opened, holds⟩ := reader_eq lawful represents trivial
      rw [readView.eq_def]
      dsimp only
      split
      · next none => exact .inl (by rw [empty none])
      · exact .inr ⟨reader, holds, by rw [opened]; rfl⟩

/-- A read at a place returns nothing but the bytes there, and only inside. -/
theorem readAt_sound (lawful : around.Lawful) (represents : content.Represents around bytes)
    {events : List ReadEvent} {offset length : Nat} {result : Bytes}
    (returned : (content.readAt around events offset length).Returns result) :
    offset + length ≤ bytes.length ∧ result = Reads.slice bytes offset length := by
  simp only [readAt, Awaited.returns_bind, Awaited.returns_settled, Checked.context_eq_ok,
    Word.add_eq_some] at returned
  obtain ⟨_, ⟨word, rfl⟩, view, viewed, read⟩ := returned
  have inside : offset + length ≤ bytes.length := by
    by_contra outside
    rw [slice_outside represents fun inside => outside inside.2] at viewed
    cases viewed
  obtain ⟨other, same, stands⟩ := slice_eq represents (Nat.le_add_right offset length) inside
  obtain rfl := Except.ok.inj (same.symm.trans viewed)
  rw [Nat.add_sub_cancel_left] at stands
  refine ⟨inside, ?_⟩
  rcases readView_cases lawful stands (length_slice inside) with whole | ⟨reader, holds, through⟩
  · rw [whole, Awaited.returns_pure] at read
    exact read.symm
  · rw [through] at read
    rw [(ContentReader.readExact_sound holds read).2,
      List.take_of_length_le (length_slice inside).le]

/-- A read beyond the end fails, whatever the system answers: when the content is cut, or already
when the end of the read is added up. -/
theorem readAt_outside (represents : content.Represents around bytes) {events : List ReadEvent}
    {offset length : Nat} (outside : bytes.length < offset + length) :
    content.readAt around events offset length = .settled (.error
      (if offset + length < wordBound then "content slice is out of bounds"
        else "content read offset overflow")) := by
  rw [readAt, Word.add]
  split
  · next word =>
      have failed : content.slice offset (offset + length) =
          .error "content slice is out of bounds" :=
        slice_outside represents fun inside => absurd inside.2 (Nat.not_le.mpr outside)
      calc (Awaited.settled (.ok (offset + length)) >>= fun finish => do
            let view ← .settled (content.slice offset finish)
            view.readView around events length)
          = (Awaited.settled (content.slice offset (offset + length)) >>= fun view =>
              view.readView around events length) := rfl
        _ = .settled (.error "content slice is out of bounds") := by
            rw [failed]
            rfl
  · rfl

/-- A read inside returns when the system answers without failures. -/
theorem readAt_returns (lawful : around.Lawful) (represents : content.Represents around bytes)
    {events : List ReadEvent} {offset length : Nat} (inside : offset + length ≤ bytes.length)
    (good : ∀ event ∈ events, event.Good) (enough : length ≤ events.countP ReadEvent.ready) :
    (content.readAt around events offset length).Returns (Reads.slice bytes offset length) := by
  obtain ⟨view, viewed, stands⟩ := slice_eq represents (Nat.le_add_right offset length) inside
  rw [Nat.add_sub_cancel_left] at stands
  have size := length_slice inside
  simp only [readAt, Awaited.returns_bind, Awaited.returns_settled, Checked.context_eq_ok,
    Word.add_eq_some]
  refine ⟨_, ⟨inside.trans_lt (length_lt represents), rfl⟩, view, viewed, ?_⟩
  rcases readView_cases lawful stands size with whole | ⟨reader, holds, through⟩
  · rw [whole, Awaited.returns_pure]
  · rw [through]
    have returned := ContentReader.readExact_returns holds size.ge good enough
    rwa [List.take_of_length_le size.le] at returned

/-- Answers to the reads of a hasher, without failures and enough for the length. -/
def Answered (length : Nat) (events : List ReadEvent) (answers : List (List FileAnswer)) : Prop :=
  (∀ event ∈ events, event.Good) ∧ length + 1 ≤ events.countP ReadEvent.ready ∧
    (∀ answer ∈ answers, .failed ∉ answer ∧ ioChunkSize ≤ answer.countP FileAnswer.isRead) ∧
      length ≤ answers.length * ioChunkSize

/-- A buffer of a reader has room unless there is nothing to read. -/
theorem buffer_open (represents : content.Represents around bytes) :
    min ioChunkSize content.len ≠ 0 ∨ bytes = [] := by
  have positive : 0 < ioChunkSize := by decide
  have length := len_eq represents
  by_cases empty : bytes = []
  · exact .inr empty
  · have some := List.length_pos_iff.mpr empty
    exact .inl (by omega)

variable {events : List ReadEvent} {answers : List (List FileAnswer)}

theorem foldlM_append (pieces before : List Bytes) :
    pieces.foldlM (fun taken bytes => Except.ok (ε := String) (taken ++ [bytes])) before =
      .ok (before ++ pieces) := by
  induction pieces generalizing before with
  | nil => rw [List.append_nil]; rfl
  | cons piece pieces induction =>
      rw [List.foldlM_cons]
      exact (induction (before ++ [piece])).trans (by rw [List.append_assoc]; rfl)

/-- The hashers get the bytes of the content. -/
theorem hashedPieces_sound (lawful : around.Lawful) (represents : content.Represents around bytes)
    (delivers : content.Delivers around) {pieces : List Bytes}
    (returned : (content.hashedPieces around events answers).Returns pieces) :
    pieces.flatten = bytes := by
  cases content with
  | memory stored =>
      rw [← Awaited.returns_pure.mp returned, represents.1]
      simp
  | file storage offset len => exact (filePieces_sound returned).trans represents.1.symm
  | stream source offset len =>
      rw [← Awaited.returns_pure.mp returned]
      exact delivered_eq represents delivers
  | base64 source offset len =>
      obtain ⟨reader, opened, holds⟩ := reader_eq lawful represents trivial
      simp only [hashedPieces, Awaited.returns_bind, Awaited.returns_settled] at returned
      obtain ⟨other, same, returned⟩ := returned
      obtain rfl := Except.ok.inj (same.symm.trans opened)
      obtain ⟨taken, flat, folded⟩ := ContentReader.consume_sound holds (buffer_open represents)
        returned
      rw [foldlM_append] at folded
      rw [← Except.ok.inj folded]
      exact flat

theorem hashedPieces_returns (lawful : around.Lawful)
    (represents : content.Represents around bytes)
    (answered : Answered bytes.length events answers) :
    ∃ pieces, (content.hashedPieces around events answers).Returns pieces := by
  obtain ⟨good, enough, safe, many⟩ := answered
  cases content with
  | memory stored => exact ⟨_, Awaited.returns_pure.mpr rfl⟩
  | file storage offset len =>
      have length := len_eq represents
      rw [Content.len] at length
      exact filePieces_returns represents.2.1 represents.2.2 safe (by omega)
  | stream source offset len => exact ⟨_, Awaited.returns_pure.mpr rfl⟩
  | base64 source offset len =>
      obtain ⟨reader, opened, holds⟩ := reader_eq lawful represents trivial
      obtain ⟨pieces, returned⟩ := ContentReader.consume_returns holds (buffer_open represents)
        (fun pieces _ => ⟨_, foldlM_append pieces []⟩) good enough
      refine ⟨pieces, ?_⟩
      simp only [hashedPieces, Awaited.returns_bind, Awaited.returns_settled]
      exact ⟨reader, opened, returned⟩

theorem hashes_sound (suite : HashSuite) (lawful : around.Lawful)
    (represents : content.Represents around bytes) (delivers : content.Delivers around)
    {digests : FixedBytes 32 × FixedBytes 48}
    (returned : (content.hashes suite around events answers).Returns digests) :
    digests = (suite.sha256 [bytes], suite.sha384 [bytes]) := by
  simp only [hashes, Awaited.returns_bind, Awaited.returns_pure] at returned
  obtain ⟨pieces, read, rfl⟩ := returned
  have flat := hashedPieces_sound lawful represents delivers read
  simp [HashSuite.sha256, HashSuite.sha384, flat]

theorem hashes_returns (suite : HashSuite) (lawful : around.Lawful)
    (represents : content.Represents around bytes) (delivers : content.Delivers around)
    (answered : Answered bytes.length events answers) :
    (content.hashes suite around events answers).Returns
      (suite.sha256 [bytes], suite.sha384 [bytes]) := by
  obtain ⟨pieces, read⟩ := hashedPieces_returns lawful represents answered
  have returned : (content.hashes suite around events answers).Returns
      (suite.sha256 pieces, suite.sha384 pieces) := by
    simp only [hashes, Awaited.returns_bind, Awaited.returns_pure]
    exact ⟨pieces, read, rfl⟩
  rwa [hashes_sound suite lawful represents delivers returned] at returned

variable {limits : MaterializeLimits}

/-- What a writer closes with stands for the bytes that it was given. -/
theorem close_sound (suite : HashSuite) {writer : ContentWriter} {result : Content × FixedBytes 32}
    (wrote : writer.Wrote bytes) (word : bytes.length < wordBound)
    (whole : writer.expectedLen = bytes.length) (closed : writer.close suite = .ok result) :
    result.2 = suite.sha256 [bytes] ∧ result.1.Represents around bytes := by
  obtain ⟨content, same, form⟩ := ContentWriter.close_eq suite wrote whole
  obtain rfl := Except.ok.inj (same.symm.trans closed)
  refine ⟨rfl, ?_⟩
  rcases form with rfl | rfl
  · exact ⟨rfl, word⟩
  · exact ⟨by simp [Reads.slice], by omega, word⟩

/-- A materialized content stands for the same bytes, and its hash is that of the bytes. -/
theorem materialize_sound (suite : HashSuite) (lawful : around.Lawful)
    (represents : content.Represents around bytes) (delivers : content.Delivers around)
    {result : Content × FixedBytes 32}
    (returned : (content.materialize suite limits around events answers).Returns result) :
    result.2 = suite.sha256 [bytes] ∧ result.1.Represents around bytes := by
  have kept : ∀ {result : Content × FixedBytes 32},
      (content.hashes suite around events answers >>= fun digests =>
        pure (content, digests.1) : Awaited (Content × FixedBytes 32)).Returns result →
      result.2 = suite.sha256 [bytes] ∧ result.1.Represents around bytes := by
    intro result returned
    simp only [Awaited.returns_bind, Awaited.returns_pure] at returned
    obtain ⟨digests, hashed, rfl⟩ := returned
    rw [hashes_sound suite lawful represents delivers hashed]
    exact ⟨rfl, represents⟩
  have length := len_eq represents
  have word := length_lt represents
  rw [materialize.eq_def] at returned
  split at returned
  · exact kept returned
  · cases content with
    | memory stored => exact kept returned
    | file storage offset len => exact kept returned
    | stream source offset len =>
        simp only [Awaited.returns_bind, Awaited.returns_settled] at returned
        obtain ⟨writer, created, after, written, closed⟩ := returned
        obtain ⟨empty, expected⟩ := ContentWriter.wrote_create created
        obtain ⟨wrote, same⟩ := ContentWriter.of_writes empty written
        rw [List.nil_append, delivered_eq represents delivers] at wrote
        exact close_sound suite wrote word (same.trans (expected.trans length)) closed
    | base64 source offset len =>
        obtain ⟨reader, opened, holds⟩ := reader_eq lawful represents trivial
        simp only [Awaited.returns_bind, Awaited.returns_settled] at returned
        obtain ⟨writer, created, other, again, after, consumed, closed⟩ := returned
        obtain rfl := Except.ok.inj (again.symm.trans opened)
        obtain ⟨empty, expected⟩ := ContentWriter.wrote_create created
        obtain ⟨pieces, flat, written⟩ := ContentReader.consume_sound holds
          (buffer_open represents) consumed
        obtain ⟨wrote, same⟩ := ContentWriter.of_writes empty written
        rw [List.nil_append, flat] at wrote
        exact close_sound suite wrote word (same.trans (expected.trans length)) closed

/-- A materialization returns when the system answers without failures and there is room. -/
theorem materialize_returns (suite : HashSuite) (lawful : around.Lawful)
    (represents : content.Represents around bytes) (delivers : content.Delivers around)
    (answered : Answered bytes.length events answers)
    (room : bytes.length ≤ limits.memoryLimit ∨ limits.reserved = true) :
    ∃ result, (content.materialize suite limits around events answers).Returns result := by
  have kept : ∃ result, (content.hashes suite around events answers >>= fun digests =>
      pure (content, digests.1) : Awaited (Content × FixedBytes 32)).Returns result := by
    simp only [Awaited.returns_bind, Awaited.returns_pure]
    exact ⟨_, _, hashes_returns suite lawful represents delivers answered, rfl⟩
  have length := len_eq represents
  have created : ∃ writer, ContentWriter.create content.len limits.memoryLimit limits.reserved =
      .ok writer := by
    rw [ContentWriter.create, length]
    split
    · exact ⟨_, rfl⟩
    · next large =>
        rw [if_pos (room.resolve_left large)]
        exact ⟨_, rfl⟩
  have closes : ∀ {writer : ContentWriter}, writer.Wrote bytes →
      writer.expectedLen = content.len → ∃ result, writer.close suite = .ok result := by
    intro writer wrote whole
    obtain ⟨_, closed, _⟩ := ContentWriter.close_eq suite wrote (whole.trans length)
    exact ⟨_, closed⟩
  rw [materialize.eq_def]
  split
  · exact kept
  · obtain ⟨writer, created⟩ := created
    obtain ⟨empty, expected⟩ := ContentWriter.wrote_create created
    cases content with
    | memory stored => exact kept
    | file storage offset len => exact kept
    | stream source offset len =>
        have flat := delivered_eq represents delivers
        obtain ⟨after, written⟩ := @ContentWriter.writes_eq _ _ around.delivered empty
          (by rw [flat, expected, length]; simp)
        obtain ⟨wrote, same⟩ := ContentWriter.of_writes empty written
        rw [List.nil_append, flat] at wrote
        obtain ⟨result, closed⟩ := closes wrote (same.trans expected)
        refine ⟨result, ?_⟩
        simp only [Awaited.returns_bind, Awaited.returns_settled]
        exact ⟨writer, created, after, written, closed⟩
    | base64 source offset len =>
        obtain ⟨reader, opened, holds⟩ := reader_eq lawful represents trivial
        obtain ⟨after, consumed⟩ := @ContentReader.consume_returns _ _ _ ContentWriter.write _ _
          writer holds (buffer_open represents) (fun pieces begins => by
            have short := begins.length_le
            exact ContentWriter.writes_eq empty (by rw [expected, length]; simpa using short))
          answered.1 answered.2.1
        obtain ⟨pieces, flat, written⟩ := ContentReader.consume_sound holds
          (buffer_open represents) consumed
        obtain ⟨wrote, same⟩ := ContentWriter.of_writes empty written
        rw [List.nil_append, flat] at wrote
        obtain ⟨result, closed⟩ := closes wrote (same.trans expected)
        refine ⟨result, ?_⟩
        simp only [Awaited.returns_bind, Awaited.returns_settled]
        exact ⟨writer, created, reader, opened, after, consumed, closed⟩

/-- All ways to read a content agree with some bytes: each returns what the bytes have there or
nothing, fails beyond their end, and returns when the system answers without failures. -/
structure Agrees (suite : HashSuite) (around : ReadSurroundings) (content : Content)
    (bytes : Bytes) : Prop where
  len : content.len = bytes.length
  readAt : ∀ events offset length result,
    (content.readAt around events offset length).Returns result →
      offset + length ≤ bytes.length ∧ result = Reads.slice bytes offset length
  readAtOutside : ∀ events offset length, bytes.length < offset + length →
    content.readAt around events offset length = .settled (.error
      (if offset + length < wordBound then "content slice is out of bounds"
        else "content read offset overflow"))
  readAtReturns : ∀ events offset length, offset + length ≤ bytes.length →
    (∀ event ∈ events, event.Good) → length ≤ events.countP ReadEvent.ready →
      (content.readAt around events offset length).Returns (Reads.slice bytes offset length)
  reader : content.Delivers around → ∃ reader, content.reader around = .ok reader ∧
    ∀ polls : List (Nat × ReadEvent),
      let delivered := (ContentReader.pollAll polls reader).1.flatMap ContentPoll.bytes
      delivered <+: bytes ∧
        (∀ room event, room ≠ 0 →
          ((ContentReader.pollAll polls reader).2.poll room event).2 = .ready [] →
            delivered = bytes) ∧
        ((∀ next ∈ polls, next.1 ≠ 0 ∧ next.2.Good) →
          bytes.length ≤ polls.countP (fun next => next.2.ready) → delivered = bytes)
  hashes : content.Delivers around → ∀ events answers digests,
    (content.hashes suite around events answers).Returns digests →
      digests = (suite.sha256 [bytes], suite.sha384 [bytes])
  hashesReturn : content.Delivers around → ∀ events answers,
    Answered bytes.length events answers →
      (content.hashes suite around events answers).Returns
        (suite.sha256 [bytes], suite.sha384 [bytes])
  materialize : content.Delivers around → ∀ limits events answers result,
    (content.materialize suite limits around events answers).Returns result →
      result.2 = suite.sha256 [bytes] ∧ result.1.Represents around bytes
  materializeReturns : content.Delivers around → ∀ limits events answers,
    Answered bytes.length events answers →
    bytes.length ≤ limits.memoryLimit ∨ limits.reserved = true →
      ∃ result, (content.materialize suite limits around events answers).Returns result

theorem agrees (suite : HashSuite) (lawful : around.Lawful)
    (represents : content.Represents around bytes) : content.Agrees suite around bytes where
  len := len_eq represents
  readAt _ _ _ _ returned := readAt_sound lawful represents returned
  readAtOutside _ _ _ outside := readAt_outside represents outside
  readAtReturns _ _ _ inside good enough := readAt_returns lawful represents inside good enough
  reader delivers := by
    obtain ⟨reader, opened, holds⟩ := reader_eq lawful represents delivers
    refine ⟨reader, opened, fun polls => ⟨?_, ?_, ?_⟩⟩
    · obtain ⟨rest, split, _⟩ := @ContentReader.pollAll_holds bytes polls reader holds
      exact ⟨rest, split.symm⟩
    · exact fun room event some ended => ContentReader.pollAll_end holds some ended
    · exact fun good enough => ContentReader.pollAll_complete holds good enough
  hashes delivers _ _ _ returned := hashes_sound suite lawful represents delivers returned
  hashesReturn delivers _ _ answered := hashes_returns suite lawful represents delivers answered
  materialize delivers _ _ _ _ returned :=
    materialize_sound suite lawful represents delivers returned
  materializeReturns delivers _ _ _ answered room :=
    materialize_returns suite lawful represents delivers answered room

/-- Slices of slices of a content. -/
def views (content : Content) (ranges : List (Nat × Nat)) : Checked Content :=
  ranges.foldlM (fun view range => view.slice range.1 range.2) content

/-- Slices of slices of bytes. -/
def byteViews (bytes : Bytes) (ranges : List (Nat × Nat)) : Option Bytes :=
  ranges.foldlM (fun part range =>
    if range.1 ≤ range.2 ∧ range.2 ≤ part.length then
      some (Reads.slice part range.1 (range.2 - range.1))
    else none) bytes

/-- **Views agree.**  Every slice of slices of a content exists when that of its bytes does, and
then all ways to read it agree with those bytes; otherwise it is refused. -/
theorem content_views_agree (suite : HashSuite) (lawful : around.Lawful)
    (represents : content.Represents around bytes) (ranges : List (Nat × Nat)) :
    (∀ part, byteViews bytes ranges = some part →
      ∃ view, content.views ranges = .ok view ∧ view.Agrees suite around part) ∧
    (byteViews bytes ranges = none →
      content.views ranges = .error "content slice is out of bounds") := by
  induction ranges generalizing content bytes with
  | nil =>
      refine ⟨fun part same => ⟨content, rfl, ?_⟩, fun none => by cases none⟩
      exact Option.some.inj same ▸ agrees suite lawful represents
  | cons range ranges induction =>
      rw [byteViews, views, List.foldlM_cons, List.foldlM_cons]
      by_cases inside : range.1 ≤ range.2 ∧ range.2 ≤ bytes.length
      · obtain ⟨view, sliced, stands⟩ := slice_eq represents inside.1 inside.2
        rw [if_pos inside, sliced]
        exact induction stands
      · rw [if_neg inside, slice_outside represents inside]
        exact ⟨nofun, fun _ => rfl⟩

/-- A text whose scan kept one mark, at its front. -/
def escapedData : Base64Data := ⟨escapedBody, [(0, 0)], 5⟩

theorem scanOf_escapedData : ScanOf escapedBody [72, 101, 108, 108, 111] escapedData where
  encoded_eq := rfl
  len_eq := rfl
  first := rfl
  increasing := List.pairwise_singleton _ _
  few := by decide
  aligned mark member := by
    obtain rfl := List.mem_singleton.mp member
    refine ⟨Nat.zero_le _, Nat.zero_le _, ?_⟩
    exact (jsonBody_escapedBody.decodes_iff "data" _).mpr (by decide)

/-- A file and an encoded text, which comes byte by byte, each behind two cuts. -/
theorem content_views_agree_sample :
    let around : ReadSurroundings := ⟨fun text => text.map ([·]), [], []⟩
    (∃ view, (Content.file [1, 2, 3, 4, 5] 1 3).views [(0, 3), (1, 2)] = .ok view ∧
      view.Agrees sha2Suite around [3]) ∧
    (∃ view, (Content.base64 escapedData 0 5).views [(1, 5), (0, 3)] = .ok view ∧
      view.Agrees sha2Suite around [101, 108, 108]) ∧
    (Content.base64 escapedData 0 5).views [(1, 5), (0, 5)] =
      .error "content slice is out of bounds" := by
  intro around
  have lawful : around.Lawful := fun text => by
    change (text.map ([·])).flatten = text
    simp [← List.flatMap_def]
  have stored : (Content.file [1, 2, 3, 4, 5] 1 3).Represents around [2, 3, 4] :=
    ⟨rfl, by simp, by simp [wordBound]⟩
  have encoded : (Content.base64 escapedData 0 5).Represents around [72, 101, 108, 108, 111] :=
    ⟨_, _, scanOf_escapedData, rfl, by simp, by simp [wordBound]⟩
  exact ⟨(content_views_agree sha2Suite lawful stored [(0, 3), (1, 2)]).1 [3] rfl,
    (content_views_agree sha2Suite lawful encoded [(1, 5), (0, 3)]).1 [101, 108, 108] rfl,
    (content_views_agree sha2Suite lawful encoded [(1, 5), (0, 5)]).2 rfl⟩

end Content

end ArIoGateway
