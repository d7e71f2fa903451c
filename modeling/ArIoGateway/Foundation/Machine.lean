import ArIoGateway.Foundation.Checked
import ArIoGateway.Foundation.Octets

/-!
# Computations that may panic

A machine computation fails with a message, as a checked one does, or it panics: on an overflow, on a
negative difference, or on a slice outside its bytes.  It agrees with a checked computation when both
do the same and the machine does not panic.
-/

/-- Why a computation stopped: a check failed, or it panicked. -/
inductive Stop where
  | rejected (message : String)
  | panicked
deriving DecidableEq

/-- A computation that may panic. -/
abbrev Machine (α : Type) := Except Stop α

namespace Machine

variable {α β γ δ : Type}

/-- A checked computation as one of the machine. -/
def check (value : Checked α) : Machine α := value.mapError .rejected

/-- A sum in words of some width. -/
def add (width left right : Nat) : Machine Nat :=
  if left + right < 2 ^ width then .ok (left + right) else .error .panicked

/-- A product in words of some width. -/
def mul (width left right : Nat) : Machine Nat :=
  if left * right < 2 ^ width then .ok (left * right) else .error .panicked

/-- A difference of words. -/
def sub (left right : Nat) : Machine Nat :=
  if right ≤ left then .ok (left - right) else .error .panicked

/-- The bytes from one place up to another. -/
def slice (bytes : Bytes) (start finish : Nat) : Machine Bytes :=
  if start ≤ finish ∧ finish ≤ bytes.length then .ok ((bytes.drop start).take (finish - start))
  else .error .panicked

/-- The byte at a place. -/
def index (bytes : Bytes) (place : Nat) : Machine UInt8 :=
  match bytes[place]? with
  | some byte => .ok byte
  | none => .error .panicked

theorem index_of_lt {bytes : Bytes} {place : Nat} (inside : place < bytes.length) :
    index bytes place = .ok bytes[place] := by
  rw [index, List.getElem?_eq_getElem inside]

/-- `try_into().unwrap()`. -/
def fixed (width : Nat) (bytes : Bytes) : Machine (FixedBytes width) :=
  if fits : bytes.length = width then .ok ⟨bytes, fits⟩ else .error .panicked

theorem fixed_of_length {width : Nat} {bytes : Bytes} (fits : bytes.length = width) :
    fixed width bytes = .ok ⟨bytes, fits⟩ := dif_pos fits

theorem add_of_lt {width left right : Nat} (fits : left + right < 2 ^ width) :
    add width left right = .ok (left + right) := if_pos fits

theorem mul_of_lt {width left right : Nat} (fits : left * right < 2 ^ width) :
    mul width left right = .ok (left * right) := if_pos fits

theorem sub_of_le {left right : Nat} (fits : right ≤ left) : sub left right = .ok (left - right) :=
  if_pos fits

theorem slice_of_le {bytes : Bytes} {start finish : Nat} (ordered : start ≤ finish)
    (inside : finish ≤ bytes.length) :
    slice bytes start finish = .ok ((bytes.drop start).take (finish - start)) :=
  if_pos ⟨ordered, inside⟩

@[simp] theorem ok_bind (value : α) (second : α → Machine β) :
    ((.ok value : Machine α) >>= second) = second value := rfl

theorem bind_eq_ok {first : Machine α} {second : α → Machine β} {result : β} :
    (first >>= second) = .ok result ↔ ∃ value, first = .ok value ∧ second value = .ok result := by
  cases first <;> simp [bind, Except.bind]

@[simp] theorem check_ok (value : α) : check (.ok value) = .ok value := rfl

@[simp] theorem check_error (message : String) :
    check (.error message : Checked α) = .error (.rejected message) := rfl

theorem check_eq_ok {value : Checked α} {result : α} :
    check value = .ok result ↔ value = .ok result := by
  cases value <;> simp

/-- A machine computation and a checked one fail with the same message, or both return, and what they
return is related. -/
inductive Agrees (related : α → β → Prop) : Machine α → Checked β → Prop
  | rejects (message) : Agrees related (.error (.rejected message)) (.error message)
  | returns {result value} : related result value → Agrees related (.ok result) (.ok value)

namespace Agrees

variable {related : α → β → Prop} {after : γ → δ → Prop}

theorem bind {first : Machine α} {model : Checked β} {second : α → Machine γ}
    {next : β → Checked δ} (agrees : Agrees related first model)
    (continues : ∀ result value, related result value → Agrees after (second result) (next value)) :
    Agrees after (first >>= second) (model >>= next) := by
  cases agrees with
  | rejects message => exact .rejects message
  | returns same => exact continues _ _ same

theorem of_check (model : Checked α) : Agrees (fun result value => result = value ∧ model = .ok value)
    (check model) model := by
  cases model with
  | error message => exact .rejects message
  | ok value => exact .returns ⟨rfl, rfl⟩

/-- The same check on both sides. -/
theorem ensure {condition other : Prop} [Decidable condition] [Decidable other]
    {message text : String} {second : Unit → Machine γ} {next : Unit → Checked δ}
    (same : condition ↔ other) (sameText : message = text)
    (continues : condition → Agrees after (second ()) (next ())) :
    Agrees after (check (Checked.ensure condition message) >>= second)
      (Checked.ensure other text >>= next) := by
  subst sameText
  by_cases holds : condition
  · rw [Checked.ensure_of holds, Checked.ensure_of (same.mp holds)]
    exact continues holds
  · rw [Checked.ensure, if_neg holds, Checked.ensure, if_neg (mt same.mpr holds)]
    exact .rejects message

theorem mono {other : α → β → Prop} {machine : Machine α} {model : Checked β}
    (agrees : Agrees related machine model)
    (weaker : ∀ result value, related result value → other result value) :
    Agrees other machine model := by
  cases agrees with
  | rejects message => exact .rejects message
  | returns same => exact .returns (weaker _ _ same)

/-- Computations that agree on equal results do the same. -/
theorem eq_check {machine : Machine α} {model : Checked α}
    (agrees : Agrees (fun result value => result = value) machine model) : machine = check model := by
  cases agrees with
  | rejects message => rfl
  | returns same => rw [same, check_ok]

end Agrees

end Machine
