import ArIoGateway.Foundation.Checked
import ArIoGateway.Foundation.Octets

/-!
# Unambiguous framing

A serializer is a sequence of actions, each of which appends one encoded field to a buffer or
fails.  Two actions *bind* a statement when their words cannot be confused: whatever follows
them, equal outputs give the statement and equal remainders.  Binding composes along sequences,
so the injectivity of a long format reduces to one fact for each kind of field.
-/

namespace Framing

/-- An action that appends one encoded field to a buffer, or fails. -/
abbrev Append := Bytes → Checked Bytes

/-- The action appends exactly this word, whatever the buffer holds. -/
def Writes (append : Append) (word : Bytes) : Prop :=
  ∀ buffer, append buffer = .ok (buffer ++ word)

/-- A successful action has appended a word that does not depend on the buffer. -/
def Uniform (append : Append) : Prop :=
  ∀ buffer result, append buffer = .ok result → ∃ word, Writes append word ∧ result = buffer ++ word

/-- The words of two actions determine the statement and where both words end. -/
def Binds (left right : Append) (agree : Prop) : Prop :=
  ∀ leftWord rightWord leftRest rightRest, Writes left leftWord → Writes right rightWord →
    leftWord ++ leftRest = rightWord ++ rightRest → agree ∧ leftRest = rightRest

/-- Run the actions in order, stopping at the first failure. -/
def run (fields : List Append) : Append :=
  fun buffer => fields.foldlM (fun output append => append output) buffer

@[simp] theorem run_nil (buffer : Bytes) : run [] buffer = .ok buffer := rfl

@[simp] theorem run_cons (field : Append) (fields : List Append) (buffer : Bytes) :
    run (field :: fields) buffer = field buffer >>= run fields := rfl

theorem run_nil_eq : run [] = pure := rfl

theorem run_cons_eq (field : Append) (fields : List Append) :
    run (field :: fields) = fun buffer => field buffer >>= run fields := rfl

theorem run_append (left right : List Append) (buffer : Bytes) :
    run (left ++ right) buffer = run left buffer >>= run right := by
  simp [run, List.foldlM_append]
  rfl

theorem uniform_run {fields : List Append} (uniform : ∀ field ∈ fields, Uniform field) :
    Uniform (run fields) := by
  induction fields with
  | nil =>
      intro buffer result done
      refine ⟨[], fun other => by simp, ?_⟩
      simpa using done.symm
  | cons field fields induction =>
      intro buffer result done
      rw [run_cons, Checked.bind_eq_ok] at done
      obtain ⟨middle, first, rest⟩ := done
      obtain ⟨word, writes, rfl⟩ := uniform field List.mem_cons_self _ _ first
      obtain ⟨words, writesRest, rfl⟩ :=
        induction (fun other member => uniform other (List.mem_cons_of_mem _ member)) _ _ rest
      refine ⟨word ++ words, fun other => ?_, by simp⟩
      rw [run_cons, writes other, Checked.ok_bind, writesRest, List.append_assoc]

/-- The word of a sequence starts with the word of its first action. -/
theorem Writes.of_run_cons {field : Append} {fields : List Append} {word : Bytes}
    (uniform : Uniform field) (uniformRest : Uniform (run fields))
    (writes : Writes (run (field :: fields)) word) :
    ∃ head tail, Writes field head ∧ Writes (run fields) tail ∧ word = head ++ tail := by
  have done := writes []
  rw [run_cons, Checked.bind_eq_ok] at done
  obtain ⟨middle, first, rest⟩ := done
  obtain ⟨head, writesHead, headSame⟩ := uniform _ _ first
  obtain ⟨tail, writesTail, tailSame⟩ := uniformRest _ _ rest
  exact ⟨head, tail, writesHead, writesTail, by simpa [headSame] using tailSame⟩

theorem Binds.mono {left right : Append} {agree weaker : Prop} (binds : Binds left right agree)
    (imp : agree → weaker) : Binds left right weaker := by
  intro leftWord rightWord leftRest rightRest writesLeft writesRight same
  exact (binds leftWord rightWord leftRest rightRest writesLeft writesRight same).imp_left imp

/-- What the words of two actions bind is bound by equal outputs of the actions. -/
theorem Binds.of_outputs {left right : Append} {agree : Prop} (binds : Binds left right agree)
    (uniformLeft : Uniform left) (uniformRight : Uniform right) {output : Bytes}
    (leftDone : left [] = .ok output) (rightDone : right [] = .ok output) : agree := by
  obtain ⟨leftWord, writesLeft, leftSame⟩ := uniformLeft _ _ leftDone
  obtain ⟨rightWord, writesRight, rightSame⟩ := uniformRight _ _ rightDone
  have words : leftWord = rightWord := by simpa [leftSame] using rightSame
  exact (binds leftWord rightWord [] [] writesLeft writesRight (by simp [words])).1

/-- Two actions for the same field of two values, with what their words bind. -/
structure Pair where
  /-- Action of the first value. -/
  left : Append
  /-- Action of the second value. -/
  right : Append
  /-- What equal words say about the two values. -/
  agree : Prop
  /-- The first action appends a word. -/
  uniformLeft : Uniform left
  /-- The second action appends a word. -/
  uniformRight : Uniform right
  /-- The words cannot be confused. -/
  binds : Binds left right agree

/-- A sequence binds what its fields bind; a later field may rely on what earlier ones bind. -/
theorem binds_run_cons {left right : Append} {lefts rights : List Append} {agree rest : Prop}
    (uniformLeft : Uniform left) (uniformRight : Uniform right)
    (uniformLefts : Uniform (run lefts)) (uniformRights : Uniform (run rights))
    (head : Binds left right agree) (tail : agree → Binds (run lefts) (run rights) rest) :
    Binds (run (left :: lefts)) (run (right :: rights)) (agree ∧ rest) := by
  intro leftWord rightWord leftRest rightRest writesLeft writesRight same
  obtain ⟨leftHead, leftTail, writesLeftHead, writesLeftTail, rfl⟩ :=
    writesLeft.of_run_cons uniformLeft uniformLefts
  obtain ⟨rightHead, rightTail, writesRightHead, writesRightTail, rfl⟩ :=
    writesRight.of_run_cons uniformRight uniformRights
  rw [List.append_assoc, List.append_assoc] at same
  obtain ⟨agreed, tails⟩ := head _ _ _ _ writesLeftHead writesRightHead same
  obtain ⟨remaining, rests⟩ := tail agreed _ _ _ _ writesLeftTail writesRightTail tails
  exact ⟨⟨agreed, remaining⟩, rests⟩

/-- Two parts of a sequence bind in turn; the second may rely on what the first binds. -/
theorem binds_run_append {lefts rights leftTail rightTail : List Append} {agree rest : Prop}
    (uniformLeft : Uniform (run lefts)) (uniformRight : Uniform (run rights))
    (uniformLeftTail : Uniform (run leftTail)) (uniformRightTail : Uniform (run rightTail))
    (head : Binds (run lefts) (run rights) agree)
    (tail : agree → Binds (run leftTail) (run rightTail) rest) :
    Binds (run (lefts ++ leftTail)) (run (rights ++ rightTail)) (agree ∧ rest) := by
  have parts : ∀ first second : List Append, run (first ++ second) = run (run first :: second) :=
    fun first second => funext fun buffer => run_append first second buffer
  rw [parts, parts]
  exact binds_run_cons uniformLeft uniformRight uniformLeftTail uniformRightTail head tail

theorem binds_nil : Binds (run []) (run []) True := by
  intro leftWord rightWord leftRest rightRest writesLeft writesRight same
  have leftEmpty : leftWord = [] := by simpa using (writesLeft []).symm
  have rightEmpty : rightWord = [] := by simpa using (writesRight []).symm
  subst leftEmpty rightEmpty
  exact ⟨trivial, by simpa using same⟩

theorem uniform_lefts (pairs : List Pair) : Uniform (run (pairs.map Pair.left)) := by
  apply uniform_run
  intro field member
  obtain ⟨pair, _, rfl⟩ := List.mem_map.mp member
  exact pair.uniformLeft

theorem uniform_rights (pairs : List Pair) : Uniform (run (pairs.map Pair.right)) := by
  apply uniform_run
  intro field member
  obtain ⟨pair, _, rfl⟩ := List.mem_map.mp member
  exact pair.uniformRight

/-- Two sequences of paired fields bind every field. -/
theorem binds_pairs (pairs : List Pair) :
    Binds (run (pairs.map Pair.left)) (run (pairs.map Pair.right))
      (∀ pair ∈ pairs, pair.agree) := by
  induction pairs with
  | nil => exact binds_nil.mono (by simp)
  | cons pair pairs induction =>
      have sequence := binds_run_cons pair.uniformLeft pair.uniformRight (uniform_lefts pairs)
        (uniform_rights pairs) pair.binds fun _ => induction
      exact sequence.mono (by simp)

/-- Two sequences over lists of one length bind the lists elementwise. -/
theorem binds_lists {α : Type} {field : α → Append} {related : α → α → Prop}
    (uniform : ∀ value, Uniform (field value))
    (binds : ∀ left right, Binds (field left) (field right) (related left right))
    {lefts rights : List α} (lengths : lefts.length = rights.length) :
    Binds (run (lefts.map field)) (run (rights.map field)) (List.Forall₂ related lefts rights) := by
  have allUniform : ∀ values : List α, Uniform (run (values.map field)) := by
    intro values
    apply uniform_run
    intro action member
    obtain ⟨value, _, rfl⟩ := List.mem_map.mp member
    exact uniform value
  induction lefts generalizing rights with
  | nil =>
      obtain rfl : rights = [] := List.length_eq_zero_iff.mp lengths.symm
      exact binds_nil.mono (by simp)
  | cons left lefts induction =>
      cases rights with
      | nil => simp at lengths
      | cons right rights =>
          have sequence := binds_run_cons (uniform left) (uniform right) (allUniform lefts)
            (allUniform rights) (binds left right)
            fun _ => induction (Nat.succ.inj lengths)
          exact sequence.mono (by simp)

/-- Words of one known length bind whatever their equality binds. -/
theorem binds_of_length {left right : Append} {agree : Prop} (width : Nat)
    (leftWidth : ∀ word, Writes left word → word.length = width)
    (rightWidth : ∀ word, Writes right word → word.length = width)
    (same : ∀ word, Writes left word → Writes right word → agree) : Binds left right agree := by
  intro leftWord rightWord leftRest rightRest writesLeft writesRight outputs
  have lengths : leftWord.length = rightWord.length :=
    (leftWidth _ writesLeft).trans (rightWidth _ writesRight).symm
  obtain ⟨words, rests⟩ := List.append_inj outputs lengths
  exact ⟨same leftWord writesLeft (words ▸ writesRight), rests⟩

/-- A payload behind a big-endian length of fixed width. -/
def prefixed (width : Nat) (payload : Bytes) : Bytes :=
  Octets.bigEndian width payload.length ++ payload

/-- A length prefix that is wide enough shows where its payload ends. -/
theorem prefixed_append_inj {width : Nat} {left right leftRest rightRest : Bytes}
    (leftBound : left.length < 256 ^ width) (rightBound : right.length < 256 ^ width)
    (same : prefixed width left ++ leftRest = prefixed width right ++ rightRest) :
    left = right ∧ leftRest = rightRest := by
  simp only [prefixed, List.append_assoc] at same
  obtain ⟨sizes, bodies⟩ := List.append_inj same (by simp)
  exact List.append_inj bodies (Octets.bigEndian_inj leftBound rightBound sizes)

/-- Length-prefixed words bind whatever the equality of their payloads binds. -/
theorem binds_of_prefixed {left right : Append} {agree : Prop} {width : Nat}
    (leftForm : ∀ word, Writes left word →
      ∃ payload, word = prefixed width payload ∧ payload.length < 256 ^ width)
    (rightForm : ∀ word, Writes right word →
      ∃ payload, word = prefixed width payload ∧ payload.length < 256 ^ width)
    (same : ∀ payload, Writes left (prefixed width payload) →
      Writes right (prefixed width payload) → agree) : Binds left right agree := by
  intro leftWord rightWord leftRest rightRest writesLeft writesRight outputs
  obtain ⟨leftPayload, rfl, leftBound⟩ := leftForm _ writesLeft
  obtain ⟨rightPayload, rfl, rightBound⟩ := rightForm _ writesRight
  obtain ⟨rfl, rests⟩ := prefixed_append_inj leftBound rightBound outputs
  exact ⟨same _ writesLeft writesRight, rests⟩

end Framing
