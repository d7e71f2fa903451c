import ArIoGateway.Foundation.Octets
import Mathlib.Data.List.Dedup

/-!
# Collision freedom of finite computations

A digest of fixed width cannot be injective on all byte strings.  What a computation needs is
that no two of the messages it really hashes collide, which is a property of a finite list.
-/

namespace Collision

/-- No two different messages of the list have one digest. -/
def Free {α : Type} (digest : Bytes → α) (messages : List Bytes) : Prop :=
  ∀ left ∈ messages, ∀ right ∈ messages, digest left = digest right → left = right

instance {α : Type} [DecidableEq α] (digest : Bytes → α) (messages : List Bytes) :
    Decidable (Free digest messages) :=
  inferInstanceAs (Decidable (∀ left ∈ messages, ∀ right ∈ messages,
    digest left = digest right → left = right))

/-- Continue with an evaluated number. -/
def evaluated {α : Type} (number : Nat) (next : Nat → α) : α :=
  match number with
  | 0 => next 0
  | number + 1 => next (number + 1)

theorem evaluated_eq {α : Type} (number : Nat) (next : Nat → α) :
    evaluated number next = next number := by
  cases number <;> rfl

/-- Whether every message has a digest of its own, by the numbers of the digests. -/
def apart {width : Nat} (digest : Bytes → FixedBytes width) : (seen : List (Nat × Bytes)) →
    (messages : List Bytes) → Bool
  | _, [] => true
  | seen, message :: messages => evaluated (Octets.ofBigEndian (digest message).val) fun number =>
      (seen.all fun entry => entry.1 != number || entry.2 == message) &&
        apart digest ((number, message) :: seen) messages

theorem Free.mono {α : Type} {digest : Bytes → α} {messages fewer : List Bytes}
    (free : Free digest messages) (subset : fewer ⊆ messages) : Free digest fewer :=
  fun left leftMember right rightMember same =>
    free left (subset leftMember) right (subset rightMember) same

/-- Two hashed messages with one digest are the same message. -/
theorem Free.eq {α : Type} {digest : Bytes → α} {messages : List Bytes}
    (free : Free digest messages) {left right : Bytes} (leftMember : left ∈ messages)
    (rightMember : right ∈ messages) (same : digest left = digest right) : left = right :=
  free left leftMember right rightMember same

/-- A computation does not collide with itself when its own messages do not collide. -/
theorem Free.append_self {α : Type} {digest : Bytes → α} {messages : List Bytes}
    (free : Free digest messages) : Free digest (messages ++ messages) :=
  free.mono (List.append_subset.mpr ⟨List.Subset.refl _, List.Subset.refl _⟩)

/-- Messages that are hashed more than once count once. -/
theorem free_of_dedup {α : Type} {digest : Bytes → α} {messages : List Bytes}
    (free : Free digest messages.dedup) : Free digest messages :=
  free.mono (List.subset_dedup messages)

/-- A single message does not collide. -/
theorem free_singleton {α : Type} (digest : Bytes → α) (message : Bytes) :
    Free digest [message] := by
  intro left leftMember right rightMember _
  rw [List.mem_singleton.mp leftMember, List.mem_singleton.mp rightMember]

section Apart

variable {width : Nat} {digest : Bytes → FixedBytes width}

/-- What is seen has its own digest's number, and is apart from what follows. -/
theorem apart_eq_true_iff {seen : List Bytes} {messages : List Bytes} :
    apart digest (seen.map fun message => (Octets.ofBigEndian (digest message).val, message))
        messages = true ↔
      (∀ left ∈ seen, ∀ right ∈ messages, digest left = digest right → left = right) ∧
        messages.Pairwise fun left right => digest left = digest right → left = right := by
  induction messages generalizing seen with
  | nil => simp [apart]
  | cons message messages induction =>
      have numbers (left right : Bytes) : Octets.ofBigEndian (digest left).val =
          Octets.ofBigEndian (digest right).val ↔ digest left = digest right :=
        ⟨fun same => Subtype.ext (Octets.ofBigEndian_inj (by simp) same), fun same => by rw [same]⟩
      have further := @induction (message :: seen)
      rw [List.map_cons] at further
      rw [apart, evaluated_eq, Bool.and_eq_true, further, List.all_map, List.all_eq_true,
        List.pairwise_cons]
      simp only [Function.comp_apply, Bool.or_eq_true, bne_iff_ne, beq_iff_eq, List.mem_cons,
        forall_eq_or_imp, ne_eq, numbers, ← imp_iff_not_or]
      constructor
      · rintro ⟨here, ⟨ahead, behind⟩, others⟩
        exact ⟨fun left member => ⟨here left member, behind left member⟩, ahead, others⟩
      · rintro ⟨all, ahead, others⟩
        exact ⟨fun left member => (all left member).1, ⟨ahead, fun left member =>
          (all left member).2⟩, others⟩

/-- Freedom is decided with one digest for each message. -/
instance (messages : List Bytes) : Decidable (Free digest messages) :=
  decidable_of_iff (apart digest [] messages = true) <| by
    rw [← List.map_nil (f := fun message => (Octets.ofBigEndian (digest message).val, message)),
      apart_eq_true_iff]
    constructor
    · rintro ⟨_, pairwise⟩ left leftMember right rightMember
      exact List.Pairwise.forall_of_forall_of_flip (fun _ _ _ => rfl) pairwise
        (pairwise.imp fun held same => (held same.symm).symm) leftMember rightMember
    · intro free
      exact ⟨by simp, List.pairwise_of_forall_mem_list fun left leftMember right rightMember =>
        free left leftMember right rightMember⟩

end Apart

end Collision
