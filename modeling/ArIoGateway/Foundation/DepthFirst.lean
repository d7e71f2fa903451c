import ArIoGateway.Foundation.Cursor

/-!
# Depth-first traversal with a stack

A machine that visits the entries of nested containers with a stack of bounded depth, and the
recursive traversal that it carries out.  An entry is skipped, or it is an item that may hold
entries of its own, which are visited before the entries behind it.
-/

namespace DepthFirst

open Cursor

variable {Context Entry Out σ τ : Type}

/-- An item, and the entries inside it with the context for them. -/
structure Item (Context Entry Out : Type) where
  out : Out
  inner : Context
  children : List Entry

/-- The entries of a container that are left. -/
structure Frame (Context Entry : Type) where
  context : Context
  entries : List Entry

/-- The outcome of one round of a machine that emits. -/
inductive Round (σ Out : Type)
  | finished
  | moved (state : σ)
  | emitted (out : Out) (state : σ)

/-- Run rounds until something is emitted. -/
def advance (step : σ → Checked (Round σ Out)) : (rounds : Nat) → σ → Checked (Option (Out × σ))
  | 0, _ => .error "loop does not end"
  | rounds + 1, state => do
      match ← step state with
      | .finished => pure none
      | .moved state => advance step rounds state
      | .emitted out state => pure (some (out, state))

/-- What a traversal emits, and how it ends. -/
@[ext] structure Emission (Out : Type) where
  outs : List Out
  ended : Checked Unit

namespace Emission

/-- Nothing is emitted. -/
def nil : Emission Out := ⟨[], .ok ()⟩

/-- The traversal fails at once. -/
def fail (message : String) : Emission Out := ⟨[], .error message⟩

/-- Something is emitted before the rest. -/
def cons (out : Out) (rest : Emission Out) : Emission Out := ⟨out :: rest.outs, rest.ended⟩

/-- One traversal after another, unless the first fails. -/
def append (first second : Emission Out) : Emission Out :=
  match first.ended with
  | .ok _ => ⟨first.outs ++ second.outs, second.ended⟩
  | .error message => ⟨first.outs, .error message⟩

@[simp] theorem nil_append (rest : Emission Out) : nil.append rest = rest := rfl

@[simp] theorem append_nil (first : Emission Out) : first.append nil = first := by
  obtain ⟨outs, _ | _⟩ := first <;> simp [append, nil]

@[simp] theorem fail_append (message : String) (rest : Emission Out) :
    (fail message).append rest = fail message := rfl

@[simp] theorem cons_append (out : Out) (first second : Emission Out) :
    (first.cons out).append second = (first.append second).cons out := by
  obtain ⟨outs, ended | ended⟩ := first <;> rfl

theorem append_assoc (first second third : Emission Out) :
    (first.append second).append third = first.append (second.append third) := by
  obtain ⟨firsts, _ | _⟩ := first
  · rfl
  · obtain ⟨seconds, _ | _⟩ := second
    · rfl
    · simp [append]

theorem append_eq_ok {first second : Emission Out} {outs : List Out} :
    first.append second = ⟨outs, .ok ()⟩ ↔
      ∃ lefts rights, first = ⟨lefts, .ok ()⟩ ∧ second = ⟨rights, .ok ()⟩ ∧
        outs = lefts ++ rights := by
  obtain ⟨firsts, _ | _⟩ := first
  · simp [append]
  · obtain ⟨seconds, ended⟩ := second
    simp only [append, mk.injEq]
    constructor
    · rintro ⟨rfl, rfl⟩
      exact ⟨firsts, seconds, by simp, ⟨rfl, rfl⟩, rfl⟩
    · rintro ⟨_, _, ⟨rfl, _⟩, ⟨rfl, rfl⟩, rfl⟩
      exact ⟨rfl, rfl⟩

theorem append_split {first second : Emission Out} {out : Out} {before after : List Out}
    (emits : (first.append second).outs = before ++ out :: after) :
    (∃ rest, first.outs = before ++ out :: rest) ∨
    (∃ rest, before = first.outs ++ rest ∧ second.outs = rest ++ out :: after) := by
  obtain ⟨firsts, _ | _⟩ := first
  · exact .inl ⟨after, emits⟩
  · rcases List.append_eq_append_iff.mp emits with ⟨rest, rfl, same⟩ | ⟨rest, same, behind⟩
    · exact .inr ⟨rest, rfl, same⟩
    · cases rest with
      | nil => exact .inr ⟨[], by simpa using same.symm, behind.symm⟩
      | cons head tail =>
          obtain ⟨rfl, _⟩ := List.cons.inj behind
          exact .inl ⟨tail, same⟩

end Emission

section Machine

variable (visit : Context → Entry → Checked (Option (Item Context Entry Out))) (tooDeep : String)

/-- Visit the entries of a container; `inside` is the traversal of what an item holds, if it may
hold anything. -/
def visitAll (inside : Option (Context → List Entry → Emission Out)) (context : Context) :
    List Entry → Emission Out
  | [] => .nil
  | entry :: entries =>
      match visit context entry with
      | .error message => .fail message
      | .ok none => visitAll inside context entries
      | .ok (some item) =>
          match item.children, inside with
          | [], _ => (visitAll inside context entries).cons item.out
          | _ :: _, none => .fail tooDeep
          | _ :: _, some inside =>
              ((inside item.inner item.children).append (visitAll inside context entries)).cons
                item.out

/-- The traversal of a container in which items nest at most `depth` deep. -/
def walk : (depth : Nat) → Context → List Entry → Emission Out
  | 0 => visitAll visit tooDeep none
  | depth + 1 => visitAll visit tooDeep (some (walk depth))

variable (limit : Nat)

/-- One round of the machine.  The frame on top of the stack comes first. -/
def step : List (Frame Context Entry) → Checked (Round (List (Frame Context Entry)) Out)
  | [] => pure .finished
  | ⟨_, []⟩ :: below => pure (.moved below)
  | ⟨context, entry :: entries⟩ :: below => do
      match ← visit context entry with
      | none => pure (.moved (⟨context, entries⟩ :: below))
      | some item =>
          match item.children with
          | [] => pure (.emitted item.out (⟨context, entries⟩ :: below))
          | first :: rest => do
              Checked.ensure (below.length + 1 < limit) tooDeep
              pure (.emitted item.out
                (⟨item.inner, first :: rest⟩ :: ⟨context, entries⟩ :: below))

/-- What the machine emits from a stack on. -/
def emission : List (Frame Context Entry) → Emission Out
  | [] => .nil
  | frame :: below =>
      (walk visit tooDeep (limit - (below.length + 1)) frame.context frame.entries).append
        (emission below)

/-- The rounds that the entries of a container take. -/
def visitCost (inside : Context → List Entry → Nat) (context : Context) : List Entry → Nat
  | [] => 1
  | entry :: entries =>
      (match visit context entry with
        | .ok (some item) => inside item.inner item.children
        | _ => 0) + 1 + visitCost inside context entries

/-- The rounds that the traversal of a container takes. -/
def walkCost : (depth : Nat) → Context → List Entry → Nat
  | 0 => visitCost visit fun _ _ => 0
  | depth + 1 => visitCost visit (walkCost depth)

/-- The rounds that the machine takes from a stack on. -/
def cost : List (Frame Context Entry) → Nat
  | [] => 0
  | frame :: below =>
      walkCost visit (limit - (below.length + 1)) frame.context frame.entries + cost below

variable {visit tooDeep limit}

attribute [local simp] walk visitAll walkCost visitCost

@[simp] theorem walk_nil (depth : Nat) (context : Context) :
    walk visit tooDeep depth context [] = .nil := by
  cases depth <;> rfl

theorem walk_error {depth : Nat} {context : Context} {entry : Entry} {entries : List Entry}
    {message : String} (failed : visit context entry = .error message) :
    walk visit tooDeep depth context (entry :: entries) = .fail message := by
  cases depth <;> simp [walk, visitAll, failed]

theorem walk_skip {depth : Nat} {context : Context} {entry : Entry} {entries : List Entry}
    (skipped : visit context entry = .ok none) :
    walk visit tooDeep depth context (entry :: entries) =
      walk visit tooDeep depth context entries := by
  cases depth <;> simp [walk, visitAll, skipped]

theorem walk_leaf {depth : Nat} {context : Context} {entry : Entry} {entries : List Entry}
    {item : Item Context Entry Out} (found : visit context entry = .ok (some item))
    (leaf : item.children = []) :
    walk visit tooDeep depth context (entry :: entries) =
      (walk visit tooDeep depth context entries).cons item.out := by
  cases depth <;> simp [walk, visitAll, found, leaf]

theorem walk_tooDeep {context : Context} {entry : Entry} {entries : List Entry}
    {item : Item Context Entry Out} (found : visit context entry = .ok (some item))
    (nested : item.children ≠ []) :
    walk visit tooDeep 0 context (entry :: entries) = .fail tooDeep := by
  obtain ⟨first, rest, children⟩ := List.exists_cons_of_ne_nil nested
  simp [walk, visitAll, found, children]

theorem walk_nested {depth : Nat} {context : Context} {entry : Entry} {entries : List Entry}
    {item : Item Context Entry Out} (found : visit context entry = .ok (some item)) :
    walk visit tooDeep (depth + 1) context (entry :: entries) =
      ((walk visit tooDeep depth item.inner item.children).append
        (walk visit tooDeep (depth + 1) context entries)).cons item.out := by
  cases children : item.children with
  | nil => rw [walk_leaf found children, walk_nil, Emission.nil_append]
  | cons first rest => simp [walk, visitAll, found, children]

theorem walkCost_pos (visit : Context → Entry → Checked (Option (Item Context Entry Out)))
    (depth : Nat) (context : Context) (entries : List Entry) :
    0 < walkCost visit depth context entries := by
  cases depth <;> cases entries <;> simp only [walkCost, visitCost] <;> omega

theorem walkCost_cons_lt
    (visit : Context → Entry → Checked (Option (Item Context Entry Out))) (depth : Nat)
    (context : Context) (entry : Entry) (entries : List Entry) :
    walkCost visit depth context entries < walkCost visit depth context (entry :: entries) := by
  cases depth <;> simp only [walkCost, visitCost] <;> omega

theorem walkCost_nested {depth : Nat} {context : Context} {entry : Entry} {entries : List Entry}
    {item : Item Context Entry Out} (found : visit context entry = .ok (some item)) :
    walkCost visit (depth + 1) context (entry :: entries) =
      walkCost visit depth item.inner item.children + 1 +
        walkCost visit (depth + 1) context entries := by
  simp [walkCost, visitCost, found]

/-- What one round does to a stack: what is emitted and what is still to be emitted make up what
was to be emitted, and the cost goes down. -/
theorem step_spec {stack : List (Frame Context Entry)} (bounded : stack.length ≤ limit) :
    match step visit tooDeep limit stack with
    | .error message => emission visit tooDeep limit stack = .fail message
    | .ok .finished => stack = []
    | .ok (.moved rest) => emission visit tooDeep limit stack = emission visit tooDeep limit rest ∧
        cost visit limit rest < cost visit limit stack ∧ rest.length ≤ limit
    | .ok (.emitted out rest) =>
        emission visit tooDeep limit stack = (emission visit tooDeep limit rest).cons out ∧
        cost visit limit rest < cost visit limit stack ∧ rest.length ≤ limit := by
  rcases stack with _ | ⟨⟨context, _ | ⟨entry, entries⟩⟩, below⟩
  · rfl
  · have positive := walkCost_pos visit (limit - (below.length + 1)) context []
    refine ⟨by simp [emission], ?_, Nat.le_of_succ_le bounded⟩
    simp only [cost]
    omega
  · have less := walkCost_cons_lt visit (limit - (below.length + 1)) context entry entries
    cases found : visit context entry with
    | error message =>
        simp only [step, found, Checked.error_bind, emission, walk_error found]
        rfl
    | ok found' =>
        cases found' with
        | none =>
            simp only [step, found, Checked.ok_bind]
            refine ⟨?_, Nat.add_lt_add_right less _, bounded⟩
            rw [emission, emission, walk_skip found]
        | some item =>
            cases children : item.children with
            | nil =>
                simp only [step, found, Checked.ok_bind, children]
                refine ⟨?_, Nat.add_lt_add_right less _, bounded⟩
                rw [emission, emission, walk_leaf found children, Emission.cons_append]
            | cons first rest =>
                have nested : item.children ≠ [] := by simp [children]
                by_cases room : below.length + 1 < limit
                · obtain ⟨depth, remaining⟩ : ∃ depth, limit - (below.length + 1) = depth + 1 :=
                    ⟨limit - (below.length + 2), by omega⟩
                  have inner : limit - (below.length + 1 + 1) = depth := by omega
                  simp only [step, found, Checked.ok_bind, children, Checked.ensure_of room]
                  refine ⟨?_, ?_, room⟩
                  · rw [emission, emission, emission, List.length_cons, remaining, inner,
                      walk_nested found, children, Emission.cons_append, Emission.append_assoc]
                  · simp only [cost, List.length_cons, remaining, inner, walkCost_nested found,
                      children]
                    omega
                · have remaining : limit - (below.length + 1) = 0 := by omega
                  have failed : Checked.ensure (below.length + 1 < limit) tooDeep =
                      .error tooDeep := by
                    simp [Checked.ensure, room]
                  simp only [step, found, Checked.ok_bind, children, failed, Checked.error_bind,
                    emission, remaining, walk_tooDeep found nested]
                  rfl

/-- What the rounds up to the next emission do. -/
theorem advance_spec (rounds : Nat) {stack : List (Frame Context Entry)}
    (bounded : stack.length ≤ limit) :
    match advance (step visit tooDeep limit) rounds stack with
    | .error message => rounds ≤ cost visit limit stack ∨
        emission visit tooDeep limit stack = .fail message
    | .ok none => emission visit tooDeep limit stack = .nil
    | .ok (some (out, rest)) =>
        emission visit tooDeep limit stack = (emission visit tooDeep limit rest).cons out ∧
        cost visit limit rest < cost visit limit stack ∧ rest.length ≤ limit := by
  induction rounds generalizing stack with
  | zero => exact .inl (Nat.zero_le _)
  | succ rounds induction =>
      have spec := @step_spec _ _ _ visit tooDeep limit _ bounded
      cases stepped : step visit tooDeep limit stack with
      | error message =>
          simp only [stepped] at spec
          simp only [advance, stepped, Checked.error_bind]
          exact .inr spec
      | ok round =>
          cases round with
          | finished =>
              simp only [stepped] at spec
              simp only [advance, stepped, Checked.ok_bind]
              rw [spec]
              rfl
          | emitted out rest =>
              simp only [stepped] at spec
              simp only [advance, stepped, Checked.ok_bind]
              exact spec
          | moved next =>
              simp only [stepped] at spec
              obtain ⟨same, less, nextBounded⟩ := spec
              have later := induction nextBounded
              simp only [advance, stepped, Checked.ok_bind, same]
              cases advanced : advance (step visit tooDeep limit) rounds next with
              | error message =>
                  simp only [advanced] at later ⊢
                  exact later.imp_left fun short => Nat.lt_of_le_of_lt short less
              | ok found =>
                  cases found with
                  | none => simpa only [advanced] using later
                  | some found =>
                      simp only [advanced] at later ⊢
                      exact ⟨later.1, Nat.lt_trans later.2.1 less, later.2.2⟩

/-- What the machine delivers is what the recursive traversal emits. -/
theorem emission_of_delivers {rounds : Nat} {stack : List (Frame Context Entry)}
    {outs : List Out} (bounded : stack.length ≤ limit)
    (delivers : Delivers (advance (step visit tooDeep limit) rounds) stack outs) :
    emission visit tooDeep limit stack = ⟨outs, .ok ()⟩ := by
  induction delivers with
  | done ended =>
      have spec := @advance_spec _ _ _ visit tooDeep limit rounds _ bounded
      rwa [ended] at spec
  | more found _ induction =>
      have spec := @advance_spec _ _ _ visit tooDeep limit rounds _ bounded
      rw [found] at spec
      rw [spec.1, induction spec.2.2]
      rfl

theorem prefix_of_begins {rounds : Nat} {stack : List (Frame Context Entry)} {outs : List Out}
    (bounded : stack.length ≤ limit)
    (begins : Begins (advance (step visit tooDeep limit) rounds) stack outs) :
    outs <+: (emission visit tooDeep limit stack).outs := by
  induction begins with
  | stop => exact List.nil_prefix
  | more found _ induction =>
      have spec := @advance_spec _ _ _ visit tooDeep limit rounds _ bounded
      rw [found] at spec
      rw [spec.1]
      exact List.cons_prefix_cons.mpr ⟨rfl, induction spec.2.2⟩

/-- Enough rounds lead to the next emission or to the end. -/
theorem advance_of_enough {rounds : Nat} {stack : List (Frame Context Entry)} {outs : List Out}
    (bounded : stack.length ≤ limit) (enough : cost visit limit stack < rounds)
    (emits : emission visit tooDeep limit stack = ⟨outs, .ok ()⟩) :
    ∃ found, advance (step visit tooDeep limit) rounds stack = .ok found := by
  have spec := @advance_spec _ _ _ visit tooDeep limit rounds _ bounded
  cases advanced : advance (step visit tooDeep limit) rounds stack with
  | ok found => exact ⟨found, rfl⟩
  | error message =>
      rw [advanced, emits] at spec
      rcases spec with short | failed
      · exact absurd enough (Nat.not_lt.mpr short)
      · cases failed

/-- With enough rounds the machine delivers all that the recursive traversal emits. -/
theorem delivers_of_emission {rounds : Nat} {stack : List (Frame Context Entry)}
    {outs : List Out} (bounded : stack.length ≤ limit) (enough : cost visit limit stack < rounds)
    (emits : emission visit tooDeep limit stack = ⟨outs, .ok ()⟩) :
    Delivers (advance (step visit tooDeep limit) rounds) stack outs := by
  induction outs generalizing stack with
  | nil =>
      obtain ⟨found, advanced⟩ := advance_of_enough bounded enough emits
      have spec := @advance_spec _ _ _ visit tooDeep limit rounds _ bounded
      rw [advanced, emits] at spec
      cases found with
      | none => exact .done advanced
      | some found => cases spec.1
  | cons out outs induction =>
      obtain ⟨found, advanced⟩ := advance_of_enough bounded enough emits
      have spec := @advance_spec _ _ _ visit tooDeep limit rounds _ bounded
      rw [advanced, emits] at spec
      cases found with
      | none => cases spec
      | some found =>
          obtain ⟨other, rest⟩ := found
          obtain ⟨same, less, restBounded⟩ := spec
          simp only [Emission.cons, Emission.mk.injEq, List.cons.injEq] at same
          obtain ⟨⟨rfl, outsSame⟩, ended⟩ := same
          refine .more advanced (induction restBounded (Nat.lt_trans less enough) ?_)
          rw [outsSame, ended]

/-- A chain of items, each one inside the one before it. -/
inductive Descends (visit : Context → Entry → Checked (Option (Item Context Entry Out))) :
    Context → List Entry → List Out → Prop
  | last {context entries entry item} : entry ∈ entries →
      visit context entry = .ok (some item) → Descends visit context entries [item.out]
  | inside {context entries entry item chain} : entry ∈ entries →
      visit context entry = .ok (some item) → Descends visit item.inner item.children chain →
      Descends visit context entries (item.out :: chain)

theorem Descends.mono {context : Context} {entries others : List Entry} {chain : List Out}
    (descends : Descends visit context entries chain) (subset : entries ⊆ others) :
    Descends visit context others chain := by
  cases descends with
  | last member found => exact .last (subset member) found
  | inside member found rest => exact .inside (subset member) found rest

theorem Descends.chain_ne_nil {context : Context} {entries : List Entry} {chain : List Out}
    (descends : Descends visit context entries chain) : chain ≠ [] := by
  cases descends <;> simp

theorem Descends.entries_ne_nil {context : Context} {entries : List Entry} {chain : List Out}
    (descends : Descends visit context entries chain) : entries ≠ [] := by
  cases descends with
  | last member _ => exact List.ne_nil_of_mem member
  | inside member _ _ => exact List.ne_nil_of_mem member

/-- The emission of a container, split at its first entry. -/
theorem walk_cons_cases (visit : Context → Entry → Checked (Option (Item Context Entry Out)))
    (tooDeep : String) (depth : Nat) (context : Context) (entry : Entry) (entries : List Entry) :
    (walk visit tooDeep depth context (entry :: entries)).outs = [] ∨
    (visit context entry = .ok none ∧ walk visit tooDeep depth context (entry :: entries) =
      walk visit tooDeep depth context entries) ∨
    (∃ item, visit context entry = .ok (some item) ∧ item.children = [] ∧
      walk visit tooDeep depth context (entry :: entries) =
        (walk visit tooDeep depth context entries).cons item.out) ∨
    (∃ item below, visit context entry = .ok (some item) ∧ depth = below + 1 ∧
      walk visit tooDeep depth context (entry :: entries) =
        ((walk visit tooDeep below item.inner item.children).append
          (walk visit tooDeep depth context entries)).cons item.out) := by
  cases found : visit context entry with
  | error message =>
      left
      rw [walk_error found]
      rfl
  | ok visited =>
      cases visited with
      | none => exact .inr (.inl ⟨rfl, walk_skip found⟩)
      | some item =>
          cases depth with
          | succ below => exact .inr (.inr (.inr ⟨item, below, rfl, rfl, walk_nested found⟩))
          | zero =>
              by_cases leaf : item.children = []
              · exact .inr (.inr (.inl ⟨item, rfl, leaf, walk_leaf found leaf⟩))
              · left
                rw [walk_tooDeep found leaf]
                rfl

/-- Every item is emitted behind the items that it is inside of. -/
theorem exists_descends {depth : Nat} {context : Context} {entries : List Entry} {out : Out}
    {before after : List Out}
    (emits : (walk visit tooDeep depth context entries).outs = before ++ out :: after) :
    ∃ chain, Descends visit context entries (chain ++ [out]) ∧ chain.length ≤ depth ∧
      chain.Sublist before := by
  induction depth using Nat.strongRecOn generalizing context entries before after with
  | ind depth deeper =>
      induction entries generalizing before after with
      | nil => simp [Emission.nil] at emits
      | cons entry entries induction =>
          rcases walk_cons_cases visit tooDeep depth context entry entries with
            stopped | ⟨_, same⟩ | ⟨item, found, _, same⟩ | ⟨item, below, found, rfl, same⟩
          · simp [stopped] at emits
          · rw [same] at emits
            obtain ⟨chain, descends, short, sublist⟩ := induction emits
            exact ⟨chain, descends.mono (List.subset_cons_self _ _), short, sublist⟩
          · rw [same] at emits
            rcases List.cons_eq_append_iff.mp emits with ⟨rfl, here⟩ | ⟨others, rfl, later⟩
            · obtain ⟨rfl, _⟩ := List.cons.inj here
              exact ⟨[], .last List.mem_cons_self found, Nat.zero_le _, List.nil_sublist _⟩
            · obtain ⟨chain, descends, short, sublist⟩ := induction later
              exact ⟨chain, descends.mono (List.subset_cons_self _ _), short, sublist.cons _⟩
          · rw [same] at emits
            rcases List.cons_eq_append_iff.mp emits with ⟨rfl, here⟩ | ⟨others, rfl, later⟩
            · obtain ⟨rfl, _⟩ := List.cons.inj here
              exact ⟨[], .last List.mem_cons_self found, Nat.zero_le _, List.nil_sublist _⟩
            · rcases Emission.append_split later with ⟨rest, inner⟩ | ⟨rest, rfl, outer⟩
              · obtain ⟨chain, descends, short, sublist⟩ := deeper below (Nat.lt_succ_self _) inner
                exact ⟨item.out :: chain, .inside List.mem_cons_self found descends,
                  Nat.succ_le_succ short, sublist.cons_cons _⟩
              · obtain ⟨chain, descends, short, sublist⟩ := induction outer
                exact ⟨chain, descends.mono (List.subset_cons_self _ _), short,
                  (sublist.trans (List.sublist_append_right _ _)).cons _⟩

/-- A container whose traversal succeeds, split at its first entry. -/
theorem walk_cons_ok {depth : Nat} {context : Context} {entry : Entry} {entries : List Entry}
    {outs : List Out}
    (emits : walk visit tooDeep depth context (entry :: entries) = ⟨outs, .ok ()⟩) :
    (visit context entry = .ok none ∧ walk visit tooDeep depth context entries = ⟨outs, .ok ()⟩) ∨
    ∃ item inner rest, visit context entry = .ok (some item) ∧ outs = item.out :: (inner ++ rest) ∧
      walk visit tooDeep depth context entries = ⟨rest, .ok ()⟩ ∧
      (item.children = [] ∧ inner = [] ∨ ∃ below, depth = below + 1 ∧
        walk visit tooDeep below item.inner item.children = ⟨inner, .ok ()⟩) := by
  cases found : visit context entry with
  | error message =>
      rw [walk_error found] at emits
      cases emits
  | ok visited =>
      cases visited with
      | none => exact .inl ⟨rfl, walk_skip found ▸ emits⟩
      | some item =>
          right
          cases depth with
          | succ below =>
              rw [walk_nested found] at emits
              obtain ⟨rfl, ended⟩ := Emission.mk.inj emits
              obtain ⟨inner, rest, innerEmits, restEmits, outsSame⟩ :=
                Emission.append_eq_ok.mp (Emission.ext_iff.mpr ⟨rfl, ended⟩)
              exact ⟨item, inner, rest, rfl, congrArg _ outsSame, restEmits,
                .inr ⟨below, rfl, innerEmits⟩⟩
          | zero =>
              by_cases leaf : item.children = []
              · rw [walk_leaf found leaf] at emits
                obtain ⟨rfl, ended⟩ := Emission.mk.inj emits
                exact ⟨item, [], _, rfl, rfl, Emission.ext_iff.mpr ⟨rfl, ended⟩, .inl ⟨leaf, rfl⟩⟩
              · rw [walk_tooDeep found leaf] at emits
                cases emits

/-- A traversal that succeeds has visited every entry, and what is inside it. -/
theorem walk_visits {depth : Nat} {context : Context} {entry : Entry} {entries : List Entry}
    {outs : List Out} (emits : walk visit tooDeep depth context entries = ⟨outs, .ok ()⟩)
    (member : entry ∈ entries) :
    visit context entry = .ok none ∨
    ∃ item, visit context entry = .ok (some item) ∧ item.out ∈ outs ∧
      (item.children = [] ∨ ∃ below inner, depth = below + 1 ∧
        walk visit tooDeep below item.inner item.children = ⟨inner, .ok ()⟩ ∧ inner ⊆ outs) := by
  induction entries generalizing outs with
  | nil => cases member
  | cons first entries induction =>
      rcases walk_cons_ok emits with ⟨skipped, rest⟩ |
        ⟨item, inner, rest, found, rfl, restEmits, below⟩
      · rcases List.mem_cons.mp member with rfl | member
        · exact .inl skipped
        · exact induction rest member
      · rcases List.mem_cons.mp member with rfl | member
        · refine .inr ⟨item, found, List.mem_cons_self, ?_⟩
          rcases below with ⟨leaf, _⟩ | ⟨below, rfl, innerEmits⟩
          · exact .inl leaf
          · exact .inr ⟨below, inner, rfl, innerEmits,
              fun out isInner => List.mem_cons_of_mem _ (List.mem_append_left _ isInner)⟩
        · have later : rest ⊆ item.out :: (inner ++ rest) :=
            fun out isRest => List.mem_cons_of_mem _ (List.mem_append_right _ isRest)
          rcases induction restEmits member with skipped | ⟨other, found, emitted, inside⟩
          · exact .inl skipped
          · refine .inr ⟨other, found, later emitted, inside.imp_right ?_⟩
            rintro ⟨below, inner, deeper, innerEmits, subset⟩
            exact ⟨below, inner, deeper, innerEmits, List.Subset.trans subset later⟩

/-- A traversal that succeeds emits every item of every chain. -/
theorem mem_of_descends {depth : Nat} {context : Context} {entries : List Entry}
    {outs chain : List Out} (emits : walk visit tooDeep depth context entries = ⟨outs, .ok ()⟩)
    (descends : Descends visit context entries chain) : chain ⊆ outs := by
  induction descends generalizing depth outs with
  | last member found =>
      rcases walk_visits emits member with skipped | ⟨item, visited, emitted, _⟩
      · simp [skipped] at found
      · obtain rfl : item = _ := by simpa [visited] using found
        simpa using emitted
  | inside member found rest induction =>
      rcases walk_visits emits member with skipped | ⟨item, visited, emitted, inside⟩
      · simp [skipped] at found
      · obtain rfl : item = _ := by simpa [visited] using found
        rcases inside with leaf | ⟨below, inner, _, innerEmits, subset⟩
        · exact absurd leaf rest.entries_ne_nil
        · exact List.cons_subset.mpr ⟨emitted, List.Subset.trans (induction innerEmits) subset⟩

/-- A traversal that skips more items, none of which holds any, emits a filter of the other. -/
theorem walk_filter {narrow : Context → Entry → Checked (Option (Item Context Entry Out))}
    {keep : Out → Bool}
    (skips : ∀ context entry, visit context entry = .ok none → narrow context entry = .ok none)
    (keeps : ∀ context entry item, visit context entry = .ok (some item) →
      keep item.out = true → narrow context entry = .ok (some item))
    (drops : ∀ context entry item, visit context entry = .ok (some item) →
      keep item.out = false → item.children = [] ∧ narrow context entry = .ok none)
    {depth : Nat} {context : Context} {entries : List Entry} {outs : List Out}
    (emits : walk visit tooDeep depth context entries = ⟨outs, .ok ()⟩) :
    walk narrow tooDeep depth context entries = ⟨outs.filter keep, .ok ()⟩ := by
  induction depth using Nat.strongRecOn generalizing context entries outs with
  | ind depth deeper =>
      induction entries generalizing outs with
      | nil =>
          rw [walk_nil] at emits
          obtain ⟨rfl, _⟩ := Emission.mk.inj emits
          exact walk_nil _ _
      | cons entry entries induction =>
          rcases walk_cons_ok emits with ⟨skipped, rest⟩ |
            ⟨item, inner, rest, found, rfl, restEmits, below⟩
          · rw [walk_skip (skips _ _ skipped), induction rest]
          · have restNarrow := induction restEmits
            cases kept : keep item.out with
            | false =>
                obtain ⟨leaf, skipped⟩ := drops _ _ _ found kept
                have innerNil : inner = [] := by
                  rcases below with ⟨_, innerNil⟩ | ⟨below, rfl, innerEmits⟩
                  · exact innerNil
                  · rw [leaf, walk_nil] at innerEmits
                    exact (Emission.mk.inj innerEmits).1.symm
                rw [walk_skip skipped, restNarrow, innerNil]
                simp [kept]
            | true =>
                have narrowed := keeps _ _ _ found kept
                rcases below with ⟨leaf, rfl⟩ | ⟨below, rfl, innerEmits⟩
                · rw [walk_leaf narrowed leaf, restNarrow]
                  simp [kept, Emission.cons]
                · rw [walk_nested narrowed, deeper below (Nat.lt_succ_self _) innerEmits,
                    restNarrow]
                  simp [kept, Emission.cons, Emission.append]

end Machine

section Simulation

/-- Two rounds with the same outcome and related states. -/
inductive Alike (related : σ → τ → Prop) : Checked (Round σ Out) → Checked (Round τ Out) → Prop
  | error (message) : Alike related (.error message) (.error message)
  | finished : Alike related (.ok .finished) (.ok .finished)
  | moved {left right} : related left right → Alike related (.ok (.moved left)) (.ok (.moved right))
  | emitted {left right} (out) : related left right →
      Alike related (.ok (.emitted out left)) (.ok (.emitted out right))

variable {related : σ → τ → Prop} {first : σ → Checked (Round σ Out)}
  {second : τ → Checked (Round τ Out)}

/-- Machines that work alike in one round work alike up to the next emission. -/
theorem advance_alike (alike : ∀ left right, related left right →
      Alike related (first left) (second right)) (rounds : Nat) (left : σ) (right : τ)
    (start : related left right) :
    Cursor.Alike related (advance first rounds left) (advance second rounds right) := by
  induction rounds generalizing left right with
  | zero => exact .error _
  | succ rounds induction =>
      have same := alike left right start
      rw [advance, advance]
      generalize first left = leftRound at same ⊢
      generalize second right = rightRound at same ⊢
      cases same with
      | error message => exact .error _
      | finished => exact .ended
      | moved next => exact induction _ _ next
      | emitted out next => exact .found _ next

end Simulation

end DepthFirst
