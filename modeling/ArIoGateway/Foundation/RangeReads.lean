import ArIoGateway.Foundation.Checked

/-!
# Programs that read ranges of a content

A program asks for ranges of a content that it does not hold, and what it asks for may depend on the
answers.  On a given content it has a result and a list of requests; a reader that answers the
requests with the content gives that result and sends no other requests.
-/

/-- A program that reads ranges of a content; with a request goes the length of the content when it
is known, and with an answer comes that length. -/
inductive Reads (β α : Type) where
  | done (value : α)
  | fail (message : String)
  | ask (offset length : Nat) (total : Option Nat) (next : List β × Nat → Reads β α)

namespace Reads

variable {α β γ σ : Type}

/-- Run a program behind another one, with its result. -/
def andThen : Reads β α → (α → Reads β γ) → Reads β γ
  | done value, rest => rest value
  | fail message, _ => fail message
  | ask offset length total next, rest =>
      ask offset length total fun answer => (next answer).andThen rest

instance : Monad (Reads β) where
  pure := done
  bind := andThen

/-- Ask for one range. -/
def read (offset length : Nat) (total : Option Nat) : Reads β (List β × Nat) :=
  ask offset length total done

/-- A computation that reads nothing. -/
def lift : Checked α → Reads β α
  | .ok value => done value
  | .error message => fail message

/-- A request for a range that the content has, with the right length if any. -/
structure Inside (content : List β) (offset length : Nat) (total : Option Nat) : Prop where
  positive : 0 < length
  fits : offset + length ≤ content.length
  whole : ∀ size ∈ total, size = content.length

instance (content : List β) (offset length : Nat) (total : Option Nat) :
    Decidable (Inside content offset length total) :=
  decidable_of_iff (0 < length ∧ offset + length ≤ content.length ∧
      ∀ size ∈ total, size = content.length)
    ⟨fun ⟨positive, fits, whole⟩ => ⟨positive, fits, whole⟩,
      fun ⟨positive, fits, whole⟩ => ⟨positive, fits, whole⟩⟩

/-- The answer of a content to a request. -/
def slice (content : List β) (offset length : Nat) : List β := (content.drop offset).take length

theorem slice_slice {content : List β} {start length offset width : Nat}
    (fits : offset + width ≤ length) :
    slice (slice content start length) offset width = slice content (start + offset) width := by
  rw [slice, slice, slice, List.drop_take, List.take_take, List.drop_drop,
    Nat.min_eq_left (by omega)]

theorem length_slice {content : List β} {offset width : Nat}
    (fits : offset + width ≤ content.length) :
    (slice content offset width).length = width := by
  rw [slice, List.length_take, List.length_drop]
  omega

/-- A slice is made up of two slices. -/
theorem slice_add (content : List β) (offset width more : Nat) :
    slice content offset (width + more) =
      slice content offset width ++ slice content (offset + width) more := by
  rw [slice, slice, slice, List.take_add, List.drop_drop]

theorem take_slice {content : List β} {offset width first : Nat} (inside : first ≤ width) :
    (slice content offset width).take first = slice content offset first := by
  rw [slice, slice, List.take_take, Nat.min_eq_left inside]

theorem drop_slice (content : List β) (offset width first : Nat) :
    (slice content offset width).drop first = slice content (offset + first) (width - first) := by
  rw [slice, slice, List.drop_take, List.drop_drop]

/-- The result of a program on a content. -/
def eval (content : List β) : Reads β α → Checked α
  | done value => .ok value
  | fail message => .error message
  | ask offset length total next =>
      if Inside content offset length total then
        eval content (next (slice content offset length, content.length))
      else .error "the range is not there"

/-- The offsets and lengths that a program asks a content for. -/
def asked (content : List β) : Reads β α → List (Nat × Nat)
  | done _ => []
  | fail _ => []
  | ask offset length total next => (offset, length) ::
      if Inside content offset length total then
        asked content (next (slice content offset length, content.length))
      else []

/-- The number of elements that a program asks a content for. -/
def cost (content : List β) (program : Reads β α) : Nat :=
  ((program.asked content).map Prod.snd).sum

section Laws

variable (content : List β)

@[simp] theorem eval_pure (value : α) : eval content (pure value) = .ok value := rfl

@[simp] theorem asked_pure (value : α) : asked content (pure value : Reads β α) = [] := rfl

@[simp] theorem eval_lift (value : Checked α) : eval content (lift value) = value := by
  cases value <;> rfl

@[simp] theorem asked_lift (value : Checked α) : asked content (lift value) = [] := by
  cases value <;> rfl

@[simp] theorem eval_bind (program : Reads β α) (rest : α → Reads β γ) :
    eval content (program >>= rest) = eval content program >>= fun value =>
      eval content (rest value) := by
  induction program with
  | done value => rfl
  | fail message => rfl
  | ask offset length total next induction =>
      change eval content (ask _ _ _ fun answer => next answer >>= rest) = _
      rw [eval, eval]
      split
      · exact induction _
      · rfl

@[simp] theorem eval_map (f : α → γ) (program : Reads β α) :
    eval content (f <$> program) = f <$> eval content program := by
  rw [show f <$> program = program >>= fun value => pure (f value) from rfl, eval_bind]
  cases eval content program <;> rfl

/-- The requests of a program come before those of what runs behind it. -/
theorem asked_bind (program : Reads β α) (rest : α → Reads β γ) :
    asked content (program >>= rest) = asked content program ++
      match eval content program with
      | .ok value => asked content (rest value)
      | .error _ => [] := by
  induction program with
  | done value => rfl
  | fail message => rfl
  | ask offset length total next induction =>
      change asked content (ask _ _ _ fun answer => next answer >>= rest) = _
      rw [asked, asked, eval]
      split
      · rw [List.cons_append, induction]
      · rfl

@[simp] theorem asked_map (f : α → γ) (program : Reads β α) :
    asked content (f <$> program) = asked content program := by
  rw [show f <$> program = program >>= fun value => pure (f value) from rfl, asked_bind]
  cases eval content program <;> simp

/-- What holds of the requests of a program and of those of what runs behind it holds of all. -/
theorem forall_asked_bind {holds : Nat × Nat → Prop} {program : Reads β α} {rest : α → Reads β γ}
    (first : ∀ request ∈ asked content program, holds request)
    (second : ∀ value, eval content program = .ok value →
      ∀ request ∈ asked content (rest value), holds request) :
    ∀ request ∈ asked content (program >>= rest), holds request := by
  intro request member
  rw [asked_bind, List.mem_append] at member
  rcases member with early | late
  · exact first request early
  · cases done : eval content program with
    | error message => simp [done] at late
    | ok value =>
        rw [done] at late
        exact second value done request late

/-- A program and what runs behind it cost no more than bounds on both. -/
theorem cost_bind_le {program : Reads β α} {rest : α → Reads β γ} {early late : Nat}
    (first : cost content program ≤ early)
    (second : ∀ value, eval content program = .ok value → cost content (rest value) ≤ late) :
    cost content (program >>= rest) ≤ early + late := by
  rw [cost] at first
  rw [cost, asked_bind, List.map_append, List.sum_append]
  apply Nat.add_le_add first
  cases done : eval content program with
  | error message => simp
  | ok value => exact second value done

theorem eval_read_eq_ok {offset length size : Nat} {total : Option Nat} {answer : List β} :
    eval content (read offset length total) = .ok (answer, size) ↔
      Inside content offset length total ∧ answer = slice content offset length ∧
        size = content.length := by
  rw [read, eval]
  split
  · next inside =>
      rw [eval, Except.ok.injEq, Prod.mk.injEq]
      exact ⟨fun ⟨read, whole⟩ => ⟨inside, read.symm, whole.symm⟩,
        fun ⟨_, read, whole⟩ => ⟨read.symm, whole.symm⟩⟩
  · next outside => exact ⟨nofun, fun ⟨inside, _⟩ => absurd inside outside⟩

@[simp] theorem asked_read (offset length : Nat) (total : Option Nat) :
    asked content (read offset length total) = [(offset, length)] := by
  rw [read, asked]
  split <;> rfl

end Laws

/-- Run a program with a reader that has a state. -/
def run (reader : Nat → Nat → Option Nat → σ → Checked (List β × Nat) × σ) :
    Reads β α → σ → Checked α × σ
  | done value, state => (.ok value, state)
  | fail message, state => (.error message, state)
  | ask offset length total next, state =>
      match reader offset length total state with
      | (.ok answer, state) => run reader (next answer) state
      | (.error message, state) => (.error message, state)

/-- A reader that answers with a content as long as it is ready for the length of the requests, and
that keeps a log of what it asks for in turn. -/
structure Serves (content : List β)
    (reader : Nat → Nat → Option Nat → σ → Checked (List β × Nat) × σ)
    (ready : Nat → σ → Prop) (log : σ → List (Nat × Nat)) : Prop where
  answers : ∀ {offset length total budget state}, ready (length + budget) state →
    Inside content offset length total → ∃ after,
      reader offset length total state =
        (.ok (slice content offset length, content.length), after) ∧
      ready budget after ∧ ∀ request ∈ log after, request ∈ log state ∨ request = (offset, length)
  refuses : ∀ {offset length total budget state}, ready budget state →
    ¬Inside content offset length total → ∃ message after,
      reader offset length total state = (.error message, after) ∧
      ∀ request ∈ log after, request ∈ log state ∨ request = (offset, length)

/-- A reader that serves a content runs a program to its result on the content, and asks for nothing
but what the program asks for. -/
theorem Serves.run_spec {content : List β}
    {reader : Nat → Nat → Option Nat → σ → Checked (List β × Nat) × σ} {ready : Nat → σ → Prop}
    {log : σ → List (Nat × Nat)} (serves : Serves content reader ready log) {program : Reads β α}
    {state : σ} (budget : ready (cost content program) state) :
    (∀ value, (run reader program state).1 = .ok value ↔ eval content program = .ok value) ∧
      ∀ request ∈ log (run reader program state).2,
        request ∈ log state ∨ request ∈ asked content program := by
  induction program generalizing state with
  | done value => exact ⟨fun _ => Iff.rfl, fun _ member => .inl member⟩
  | fail message => exact ⟨fun _ => ⟨nofun, nofun⟩, fun _ member => .inl member⟩
  | ask offset length total next induction =>
      rw [run, eval, asked]
      by_cases inside : Inside content offset length total
      · rw [cost, asked, if_pos inside, List.map_cons, List.sum_cons] at budget
        obtain ⟨after, answered, left, logged⟩ := serves.answers budget inside
        obtain ⟨result, requests⟩ := induction _ left
        rw [answered, if_pos inside, if_pos inside]
        refine ⟨result, fun request member => ?_⟩
        rcases requests request member with early | late
        · rcases logged request early with before | rfl
          · exact .inl before
          · exact .inr List.mem_cons_self
        · exact .inr (List.mem_cons_of_mem _ late)
      · obtain ⟨message, after, refused, logged⟩ := serves.refuses budget inside
        rw [refused, if_neg inside, if_neg inside]
        refine ⟨fun _ => ⟨nofun, nofun⟩, fun request member => ?_⟩
        rcases logged request member with before | rfl
        · exact .inl before
        · exact .inr List.mem_cons_self

end Reads
