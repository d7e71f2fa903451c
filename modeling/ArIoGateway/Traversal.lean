import ArIoGateway.Bundles
import ArIoGateway.Foundation.DepthFirst
import ArIoGateway.IndexFilter
import Mathlib.Logic.Relation

/-!
# Bundle traversal

The traversal that indexes the items of a root bundle: a stack of bundles that are open, of which
the innermost one is read.  It carries out a depth-first traversal of the nested bundles, and a
filter on the items only filters what it emits.
-/

namespace ArIoGateway

open DepthFirst Octets

section Model

variable (crypto : CryptoSuite) (reader : JsonReader) (filter : Rule) (height : Nat)

/-- `filter_keeps`.  Nested bundles stay indexed so that their descendants keep a stored
parent. -/
def filterKeeps (ownerAddress : Option (FixedBytes 32)) (tags : List (Bytes × Bytes)) : Bool :=
  (BundleFormat.fromPairs tags).isOk ||
    filter.matches ((ownerAddress.map Subtype.val).getD []) tags height

/-- The owner address that the filter reads; items without a signer have none. -/
def VerifiedItem.ownerAddress (suite : HashSuite) (item : VerifiedItem) :
    Option (FixedBytes 32) :=
  if item.owner = [] then none else some (suite.sha256 [item.owner])

/-- An item that the traversal emits, with its identifier and where it occurs. -/
structure Occurrence where
  id : FixedBytes 32
  item : VerifiedItem
  location : BundleLocation

/-- The metadata that the index stores for an occurrence. -/
def Occurrence.metadata (suite : HashSuite) (occurrence : Occurrence) : ObjectMetadata :=
  occurrence.item.metadata suite occurrence.id

/-- A bundle that is open: its entries that are left, and where it occurs. -/
structure BundleFrame where
  items : BundleItems
  id : FixedBytes 32
  path : List Nat
  pending : Option BundleEntry

/-- The bundles that are open, the innermost one first. -/
structure BundleTraversal where
  stack : List BundleFrame

/-- The next entry of an open bundle: one that is pending, or the next one of the cursor. -/
def BundleFrame.take (frame : BundleFrame) : Checked (Option (BundleEntry × BundleItems)) :=
  match frame.pending with
  | some entry => pure (some (entry, frame.items))
  | none => frame.items.next

/-- The item of an entry that the filter keeps, with the listed identifier.  An item that the
filter rejects needs no signature check. -/
def selectItem (entry : BundleEntry) : Checked (Option (FixedBytes 32 × VerifiedItem)) :=
  match entry.id with
  | none => pure none
  | some id =>
      match entry with
      | .binary _ bytes _ => do
          let header ← readDataItemHeader crypto.toHashSuite bytes id
          if filterKeeps filter height (header.ownerAddress crypto.toHashSuite) header.tags then
            (fun item => some (id, item)) <$> verifyDataItemHeader crypto bytes header id
          else pure none
      | .json _ => do
          match ← entry.verify crypto reader none with
          | none => pure none
          | some item =>
              if filterKeeps filter height (item.ownerAddress crypto.toHashSuite) item.tags then
                pure (some (id, item))
              else pure none

/-- The occurrence of an item in an open bundle. -/
def occurrenceOf (suite : HashSuite) (parentId : FixedBytes 32) (parentPath : List Nat)
    (entry : BundleEntry) (headerId : FixedBytes 32) (item : VerifiedItem) : Occurrence where
  id := item.id suite headerId
  item
  location :=
    { id := (item.id suite headerId).val
      parentId := parentId.val
      path := parentPath ++ [entry.offset]
      itemOffset := entry.offset
      itemSize := item.itemSize
      dataOffset := item.dataOffset
      json := entry.isJson }

/-- The text of the error for bundles that nest too deep. -/
def nestingError : String := s!"nested bundle exceeds maximum depth {maxBundleDepth}"

/-- Open an item that is itself a bundle and has entries. -/
def descend (stack : List BundleFrame) (occurrence : Occurrence) : Checked (List BundleFrame) :=
  match occurrence.item.bundleFormat with
  | none => pure stack
  | some format => do
      let items ← BundleItems.checked reader occurrence.item.data format
      match ← items.next with
      | none => pure stack
      | some (first, items) => do
          Checked.ensure (stack.length < maxBundleDepth) nestingError
          pure ({ items, id := occurrence.id, path := occurrence.location.path,
                  pending := some first } :: stack)

namespace BundleTraversal

/-- Open the root bundle. -/
def new (root : Bytes) (rootId : FixedBytes 32) (format : BundleFormat) :
    Checked BundleTraversal := do
  let items ← BundleItems.checked reader root format
  pure { stack := [{ items, id := rootId, path := [], pending := none }] }

/-- One round of the loop in `next_matching`. -/
def step (traversal : BundleTraversal) : Checked (Round BundleTraversal Occurrence) :=
  match traversal.stack with
  | [] => pure .finished
  | parent :: below => do
      match ← parent.take with
      | none => pure (.moved { stack := below })
      | some (entry, items) =>
          let stack := { parent with items, pending := none } :: below
          match ← selectItem crypto reader filter height entry with
          | none => pure (.moved { stack })
          | some (headerId, item) => do
              let occurrence := occurrenceOf crypto.toHashSuite parent.id parent.path entry headerId
                item
              let stack ← descend reader stack occurrence
              pure (.emitted occurrence { stack })

/-- `next_matching`, in a bounded number of rounds. -/
def nextMatching (rounds : Nat) :
    BundleTraversal → Checked (Option (Occurrence × BundleTraversal)) :=
  advance (step crypto reader filter height) rounds

end BundleTraversal

/-- `next_bundle_batch`: the occurrences of a batch, and whether the traversal is complete. -/
def nextBundleBatch (rounds batchSize : Nat) (traversal : BundleTraversal) :
    Checked (List Occurrence × Bool × BundleTraversal) :=
  Cursor.takeUpTo (BundleTraversal.nextMatching crypto reader filter height rounds) batchSize
    traversal

/-- The batches that `persist_bundle` takes from a traversal. -/
def bundleBatches (rounds batchSize : Nat) (traversal : BundleTraversal) :
    Checked (List (List Occurrence × Bool)) :=
  Cursor.parts (nextBundleBatch crypto reader filter height rounds batchSize) rounds traversal

/-- A traversal and a later state of its loop. -/
def BundleTraversal.Reaches : BundleTraversal → BundleTraversal → Prop :=
  Relation.ReflTransGen fun before after =>
    BundleTraversal.step crypto reader filter height before = .ok (.moved after) ∨
      ∃ occurrence, BundleTraversal.step crypto reader filter height before =
        .ok (.emitted occurrence after)

end Model

/-- The bundle that entries are read from. -/
structure Container where
  id : FixedBytes 32
  path : List Nat

section Abstraction

variable {crypto : CryptoSuite} {reader : JsonReader} {filter : Rule} {height : Nat}

/-- All entries of a bundle with valid framing. -/
def listEntries (reader : JsonReader) (bundle : Bytes) (format : BundleFormat) :
    Checked (List BundleEntry) := do
  let items ← BundleItems.checked reader bundle format
  items.forEach (fun entries entry => pure (entries ++ [entry])) []

/-- The entries inside an item. -/
def nestedEntries (reader : JsonReader) (item : VerifiedItem) : Checked (List BundleEntry) :=
  match item.bundleFormat with
  | none => pure []
  | some format => listEntries reader item.data format

/-- What the traversal finds at an entry. -/
def visitEntry (crypto : CryptoSuite) (reader : JsonReader) (filter : Rule) (height : Nat)
    (container : Container) (entry : BundleEntry) :
    Checked (Option (Item Container BundleEntry Occurrence)) := do
  match ← selectItem crypto reader filter height entry with
  | none => pure none
  | some (headerId, item) => do
      let out := occurrenceOf crypto.toHashSuite container.id container.path entry headerId item
      let children ← nestedEntries reader item
      pure (some { out, inner := ⟨out.id, out.location.path⟩, children })

theorem foldlM_snoc (entries listed : List BundleEntry) :
    entries.foldlM (fun listed entry => (pure (listed ++ [entry]) : Checked _)) listed =
      .ok (listed ++ entries) := by
  induction entries generalizing listed with
  | nil => simp [pure, Except.pure]
  | cons entry entries induction => simp [List.foldlM_cons, induction]

theorem listEntries_of_checked {bundle : Bytes} {format : BundleFormat} {items : BundleItems}
    {entries : List BundleEntry}
    (opened : BundleItems.checked reader bundle format = .ok items)
    (delivers : Cursor.Delivers BundleItems.next items entries) :
    listEntries reader bundle format = .ok entries := by
  rw [listEntries, opened, Checked.ok_bind, BundleItems.forEach_eq delivers, foldlM_snoc,
    List.nil_append]

theorem delivers_of_listEntries {bundle : Bytes} {format : BundleFormat}
    {entries : List BundleEntry} (listed : listEntries reader bundle format = .ok entries) :
    ∃ items, BundleItems.checked reader bundle format = .ok items ∧
      BundleItems.new reader bundle format = .ok items ∧
      Cursor.Delivers BundleItems.next items entries := by
  obtain ⟨items, opened, _⟩ := Checked.bind_eq_ok.mp listed
  obtain ⟨created, others, delivers⟩ := BundleItems.delivers_of_checked opened
  obtain rfl : others = entries := by
    simpa using (listEntries_of_checked opened delivers).symm.trans listed
  exact ⟨items, opened, created, delivers⟩

/-- An open bundle and the list of its entries that are left. -/
structure Shows (frame : BundleFrame) (abstract : Frame Container BundleEntry) : Prop where
  context : abstract.context = ⟨frame.id, frame.path⟩
  entries : ∃ rest, Cursor.Delivers BundleItems.next frame.items rest ∧
    abstract.entries = frame.pending.toList ++ rest

/-- A traversal and the stack of the lists of entries that are left. -/
def ShowsAll (traversal : BundleTraversal) (stack : List (Frame Container BundleEntry)) : Prop :=
  List.Forall₂ Shows traversal.stack stack

theorem take_of_shows {frame : BundleFrame} {abstract : Frame Container BundleEntry}
    (shown : Shows frame abstract) :
    (frame.take = .ok none ∧ abstract.entries = []) ∨
    ∃ entry items rest, frame.take = .ok (some (entry, items)) ∧ abstract.entries = entry :: rest ∧
      Cursor.Delivers BundleItems.next items rest := by
  obtain ⟨rest, delivers, entries⟩ := shown.entries
  cases waiting : frame.pending with
  | some entry =>
      rw [waiting] at entries
      exact .inr ⟨entry, frame.items, rest, by simp [BundleFrame.take, waiting], entries, delivers⟩
  | none =>
      rw [waiting] at entries
      have same : frame.take = frame.items.next := by simp [BundleFrame.take, waiting]
      cases delivers with
      | done ended => exact .inl ⟨same.trans ended, entries⟩
      | more found others => exact .inr ⟨_, _, _, same.trans found, entries, others⟩

/-- Opening an item puts the entries inside it on the stack, if there are any. -/
theorem descend_spec (reader : JsonReader) (stack : List BundleFrame) (occurrence : Occurrence) :
    (∃ message, nestedEntries reader occurrence.item = .error message ∧
      descend reader stack occurrence = .error message) ∨
    (nestedEntries reader occurrence.item = .ok [] ∧
      descend reader stack occurrence = .ok stack) ∨
    ∃ first rest frame, nestedEntries reader occurrence.item = .ok (first :: rest) ∧
      Shows frame ⟨⟨occurrence.id, occurrence.location.path⟩, first :: rest⟩ ∧
      descend reader stack occurrence =
        (Checked.ensure (stack.length < maxBundleDepth) nestingError >>= fun _ =>
          pure (frame :: stack)) := by
  cases announced : occurrence.item.bundleFormat with
  | none =>
      exact .inr (.inl ⟨by simp [nestedEntries, announced, pure, Except.pure],
        by simp [descend, announced, pure, Except.pure]⟩)
  | some format =>
      cases opened : BundleItems.checked reader occurrence.item.data format with
      | error message =>
          exact .inl ⟨message, by simp [nestedEntries, announced, listEntries, opened],
            by simp [descend, announced, opened]⟩
      | ok items =>
          obtain ⟨_, entries, delivers⟩ := BundleItems.delivers_of_checked opened
          have listed : nestedEntries reader occurrence.item = .ok entries := by
            simp only [nestedEntries, announced]
            exact listEntries_of_checked opened delivers
          right
          cases delivers with
          | done ended =>
              exact .inl ⟨listed, by simp [descend, announced, opened, ended, pure, Except.pure]⟩
          | @more _ others first rest found delivers =>
              exact .inr ⟨first, rest, ⟨others, occurrence.id, occurrence.location.path, some first⟩,
                listed, ⟨rfl, rest, delivers, rfl⟩, by simp [descend, announced, opened, found]⟩

/-- The traversal and the machine on the lists of entries work alike. -/
theorem step_alike (traversal : BundleTraversal) (stack : List (Frame Container BundleEntry))
    (shown : ShowsAll traversal stack) :
    Alike ShowsAll (BundleTraversal.step crypto reader filter height traversal)
      (DepthFirst.step (visitEntry crypto reader filter height) nestingError maxBundleDepth
        stack) := by
  obtain ⟨frames⟩ := traversal
  cases shown with
  | nil => exact .finished
  | @cons parent abstract below belowShown shownParent shownBelow =>
      have depth : below.length = belowShown.length := shownBelow.length_eq
      obtain ⟨context, entries⟩ := abstract
      obtain rfl : context = ⟨parent.id, parent.path⟩ := shownParent.context
      rcases take_of_shows shownParent with ⟨taken, rfl⟩ | ⟨entry, items, rest, taken, rfl, delivers⟩
      · simp only [BundleTraversal.step, taken, Checked.ok_bind, DepthFirst.step]
        exact .moved shownBelow
      · have shownLeft : ShowsAll ⟨{ parent with items, pending := none } :: below⟩
            (⟨⟨parent.id, parent.path⟩, rest⟩ :: belowShown) :=
          .cons ⟨rfl, rest, delivers, rfl⟩ shownBelow
        simp only [BundleTraversal.step, taken, Checked.ok_bind, DepthFirst.step, visitEntry]
        cases selected : selectItem crypto reader filter height entry with
        | error message => exact .error _
        | ok found =>
            cases found with
            | none => exact .moved shownLeft
            | some found =>
                obtain ⟨headerId, item⟩ := found
                simp only [Checked.ok_bind]
                rcases descend_spec reader
                    ({ parent with items, pending := none } :: below)
                    (occurrenceOf crypto.toHashSuite parent.id parent.path entry headerId item) with
                  ⟨message, failed, descended⟩ | ⟨leaf, descended⟩ |
                  ⟨first, others, frame, nested, shownFrame, descended⟩
                · have failed : nestedEntries reader item = .error message := failed
                  simp only [failed, descended, Checked.error_bind]
                  exact .error _
                · have leaf : nestedEntries reader item = .ok [] := leaf
                  simp only [leaf, descended, Checked.ok_bind]
                  exact .emitted _ shownLeft
                · have nested : nestedEntries reader item = .ok (first :: others) := nested
                  simp only [nested, descended, Checked.ok_bind, List.length_cons, depth]
                  cases Checked.ensure (belowShown.length + 1 < maxBundleDepth) nestingError with
                  | error message => exact .error _
                  | ok _ => exact .emitted _ (.cons shownFrame shownLeft)

end Abstraction

section Filter

variable {crypto : CryptoSuite} {reader : JsonReader} {filter : Rule} {height : Nat}

/-- Whether the filter keeps an item. -/
def Occurrence.kept (suite : HashSuite) (filter : Rule) (height : Nat)
    (occurrence : Occurrence) : Bool :=
  filterKeeps filter height (occurrence.item.ownerAddress suite) occurrence.item.tags

theorem filterKeeps_always (height : Nat) (ownerAddress : Option (FixedBytes 32))
    (tags : List (Bytes × Bytes)) : filterKeeps .always height ownerAddress tags = true := by
  simp [filterKeeps, Rule.matches]

/-- The two views of an item that the filter reads: its header, and the verified item. -/
theorem filterKeeps_of_header {bytes : Bytes} {id : FixedBytes 32} {header : DataItemHeader}
    {item : VerifiedItem} (read : readDataItemHeader crypto.toHashSuite bytes id = .ok header)
    (verified : verifyDataItemHeader crypto bytes header id = .ok item) :
    header.ownerAddress crypto.toHashSuite = item.ownerAddress crypto.toHashSuite ∧
      header.tags = item.tags := by
  have nonempty : header.owner ≠ [] :=
    List.ne_nil_of_length_pos (Nat.lt_of_lt_of_le (by decide)
      (laid_of_readDataItemHeader read).sizes_ge.2)
  simp only [verifyDataItemHeader, Checked.bind_eq_ok, Checked.ensure_eq_ok,
    Checked.pure_eq_ok] at verified
  obtain ⟨_, _, _, _, ⟨_, owner⟩, signed, rfl⟩ := verified
  refine ⟨?_, rfl⟩
  unfold checkSignature at signed
  unfold DataItemHeader.ownerAddress VerifiedItem.ownerAddress
  split at signed
  · next unsigned =>
      obtain ⟨_, rfl⟩ : _ = _ ∧ [] = owner := by simpa using signed
      simp [unsigned]
  · next signer =>
      simp only [Checked.bind_eq_ok, Checked.pure_eq_ok, Prod.mk.injEq] at signed
      obtain ⟨_, _, _, rfl⟩ := signed
      simp [signer, nonempty]

/-- The item of an entry does not depend on the filter; the filter only decides whether it is
kept. -/
theorem selectItem_spec (crypto : CryptoSuite) (reader : JsonReader) (filter : Rule)
    (height : Nat) (entry : BundleEntry) :
    match selectItem crypto reader .always 0 entry with
    | .error _ => True
    | .ok none => selectItem crypto reader filter height entry = .ok none
    | .ok (some (headerId, item)) => selectItem crypto reader filter height entry =
        if filterKeeps filter height (item.ownerAddress crypto.toHashSuite) item.tags then
          .ok (some (headerId, item))
        else .ok none := by
  cases entry with
  | json entry =>
      cases listed : entry.id with
      | none => simp [selectItem, BundleEntry.id, listed, pure, Except.pure]
      | some id =>
          simp only [selectItem, BundleEntry.id, listed, filterKeeps_always, if_true]
          cases (BundleEntry.json entry).verify crypto reader none with
          | error message => trivial
          | ok found =>
              cases found with
              | none => rfl
              | some item => rfl
  | binary id bytes offset =>
      simp only [selectItem, BundleEntry.id, filterKeeps_always, if_true]
      cases read : readDataItemHeader crypto.toHashSuite bytes id with
      | error message => trivial
      | ok header =>
          simp only [Checked.ok_bind]
          cases verified : verifyDataItemHeader crypto bytes header id with
          | error message => trivial
          | ok item =>
              obtain ⟨ownerAddress, tags⟩ := filterKeeps_of_header read verified
              simp only [ownerAddress, tags]
              rfl

/-- The item that the visit of an entry finds. -/
theorem visitEntry_eq_some {container : Container} {entry : BundleEntry}
    {found : Item Container BundleEntry Occurrence} :
    visitEntry crypto reader filter height container entry = .ok (some found) ↔
      ∃ headerId item, selectItem crypto reader filter height entry = .ok (some (headerId, item)) ∧
        found.out =
          occurrenceOf crypto.toHashSuite container.id container.path entry headerId item ∧
        found.inner = ⟨found.out.id, found.out.location.path⟩ ∧
        nestedEntries reader item = .ok found.children := by
  simp only [visitEntry, Checked.bind_eq_ok]
  constructor
  · rintro ⟨_ | ⟨headerId, item⟩, selected, visited⟩
    · simp at visited
    · simp only [Checked.bind_eq_ok, Checked.pure_eq_ok, Option.some.injEq] at visited
      obtain ⟨children, nested, rfl⟩ := visited
      exact ⟨headerId, item, selected, rfl, rfl, nested⟩
  · rintro ⟨headerId, item, selected, out, inner, nested⟩
    refine ⟨some (headerId, item), selected, ?_⟩
    simp only [nested, Checked.ok_bind, Checked.pure_eq_ok, ← out, ← inner]

theorem visitEntry_eq_none {container : Container} {entry : BundleEntry} :
    visitEntry crypto reader filter height container entry = .ok none ↔
      selectItem crypto reader filter height entry = .ok none := by
  simp only [visitEntry, Checked.bind_eq_ok]
  constructor
  · rintro ⟨_ | _, selected, visited⟩
    · exact selected
    · simp at visited
  · exact fun selected => ⟨none, selected, rfl⟩

/-- A filtered traversal emits what the filter keeps of the full traversal. -/
theorem walk_filtered (filter : Rule) (height : Nat) {depth : Nat} {container : Container}
    {entries : List BundleEntry} {all : List Occurrence}
    (full : walk (visitEntry crypto reader .always 0) nestingError depth container entries =
      ⟨all, .ok ()⟩) :
    walk (visitEntry crypto reader filter height) nestingError depth container entries =
      ⟨all.filter (Occurrence.kept crypto.toHashSuite filter height), .ok ()⟩ := by
  refine walk_filter ?_ ?_ ?_ full
  · intro container entry skipped
    have spec := selectItem_spec crypto reader filter height entry
    rw [visitEntry_eq_none.mp skipped] at spec
    exact visitEntry_eq_none.mpr spec
  · intro container entry found visited kept
    obtain ⟨headerId, item, selected, out, inner, nested⟩ := visitEntry_eq_some.mp visited
    have spec := selectItem_spec crypto reader filter height entry
    have keeps : filterKeeps filter height (item.ownerAddress crypto.toHashSuite) item.tags =
        true := by
      rwa [out] at kept
    simp only [selected, keeps, if_true] at spec
    exact visitEntry_eq_some.mpr ⟨headerId, item, spec, out, inner, nested⟩
  · intro container entry found visited dropped
    obtain ⟨headerId, item, selected, out, inner, nested⟩ := visitEntry_eq_some.mp visited
    have spec := selectItem_spec crypto reader filter height entry
    have drops : filterKeeps filter height (item.ownerAddress crypto.toHashSuite) item.tags =
        false := by
      rwa [out] at dropped
    simp only [selected, drops, Bool.false_eq_true, if_false] at spec
    refine ⟨?_, visitEntry_eq_none.mpr spec⟩
    -- A bundle is always kept, so that what is dropped holds nothing.
    have plain : item.bundleFormat = none := by
      have notBundle := (Bool.or_eq_false_iff.mp drops).1
      unfold VerifiedItem.bundleFormat
      cases announced : BundleFormat.fromPairs item.tags with
      | error message => rfl
      | ok format => simp [announced, Except.isOk, Except.toBool] at notBundle
    simp only [nestedEntries, plain, Checked.pure_eq_ok] at nested
    exact nested.symm

end Filter

section Bounds

variable {crypto : CryptoSuite} {reader : JsonReader} {filter : Rule} {height : Nat}

/-- The last item of a chain lies in the bundle that the chain starts from, or in the item before
it. -/
theorem parent_of_descends {container : Container} {entries : List BundleEntry}
    {chain : List Occurrence} {occurrence : Occurrence}
    (descends : Descends (visitEntry crypto reader filter height) container entries
      (chain ++ [occurrence])) :
    (chain = [] ∧ occurrence.location.parentId = container.id.val ∧
      occurrence.location.path = container.path ++ [occurrence.location.itemOffset]) ∨
    ∃ parent ∈ chain, occurrence.location.parentId = parent.location.id ∧
      occurrence.location.path = parent.location.path ++ [occurrence.location.itemOffset] := by
  generalize whole : chain ++ [occurrence] = links at descends
  induction descends generalizing chain with
  | last _ visited =>
      obtain ⟨rfl, rfl⟩ : chain = [] ∧ occurrence = _ := by
        cases chain with
        | nil => exact ⟨rfl, by simpa using whole⟩
        | cons _ _ => simp at whole
      obtain ⟨headerId, item, _, out, _⟩ := visitEntry_eq_some.mp visited
      rw [out]
      exact .inl ⟨rfl, rfl, rfl⟩
  | @inside _ _ _ found links _ visited rest induction =>
      obtain ⟨headerId, item, _, out, inner, _⟩ := visitEntry_eq_some.mp visited
      cases chain with
      | nil =>
          obtain rfl : links = [] := by simpa using (List.cons.inj whole).2.symm
          cases rest
      | cons first chain =>
          obtain ⟨rfl, tail⟩ := List.cons.inj whole
          right
          rcases induction tail with ⟨rfl, parentId, path⟩ | ⟨parent, member, same⟩
          · refine ⟨found.out, List.mem_cons_self, ?_, ?_⟩
            · rw [parentId, inner, out]
              rfl
            · rw [path, inner]
          · exact ⟨parent, List.mem_cons_of_mem _ member, same⟩

theorem length_of_descend {stack opened : List BundleFrame} {occurrence : Occurrence}
    (done : descend reader stack occurrence = .ok opened) (bounded : stack.length ≤ maxBundleDepth) :
    opened.length ≤ maxBundleDepth := by
  rcases descend_spec reader stack occurrence with ⟨_, _, descended⟩ | ⟨_, descended⟩ |
    ⟨_, _, frame, _, _, descended⟩
  · simp [descended] at done
  · obtain rfl : stack = opened := by simpa [descended] using done
    exact bounded
  · simp only [descended, Checked.bind_eq_ok, Checked.ensure_eq_ok, Checked.pure_eq_ok] at done
    obtain ⟨_, room, rfl⟩ := done
    exact room

/-- No round takes the stack above the maximum depth. -/
theorem length_of_step {before after : BundleTraversal}
    (stepped : BundleTraversal.step crypto reader filter height before = .ok (.moved after) ∨
      ∃ occurrence, BundleTraversal.step crypto reader filter height before =
        .ok (.emitted occurrence after))
    (bounded : before.stack.length ≤ maxBundleDepth) : after.stack.length ≤ maxBundleDepth := by
  obtain ⟨frames⟩ := before
  cases frames with
  | nil => rcases stepped with stepped | ⟨_, stepped⟩ <;> cases stepped
  | cons parent below =>
      have belowBounded : below.length ≤ maxBundleDepth := Nat.le_of_succ_le bounded
      simp only [BundleTraversal.step] at stepped
      cases taken : parent.take with
      | error message => simp [taken] at stepped
      | ok found =>
          cases found with
          | none =>
              obtain rfl : (⟨below⟩ : BundleTraversal) = after := by
                simpa [taken] using stepped
              exact belowBounded
          | some found =>
              obtain ⟨entry, items⟩ := found
              simp only [taken, Checked.ok_bind] at stepped
              cases selected : selectItem crypto reader filter height entry with
              | error message => simp [selected] at stepped
              | ok chosen =>
                  cases chosen with
                  | none =>
                      obtain rfl : _ = after := by simpa [selected] using stepped
                      exact bounded
                  | some chosen =>
                      obtain ⟨headerId, item⟩ := chosen
                      simp only [selected, Checked.ok_bind, Checked.bind_eq_ok,
                        Checked.pure_eq_ok, reduceCtorEq, and_false, exists_false, false_or,
                        Round.emitted.injEq] at stepped
                      obtain ⟨_, opened, descended, _, rfl⟩ := stepped
                      exact length_of_descend descended bounded

theorem length_of_reaches {first last : BundleTraversal}
    (reaches : BundleTraversal.Reaches crypto reader filter height first last)
    (bounded : first.stack.length ≤ maxBundleDepth) : last.stack.length ≤ maxBundleDepth := by
  induction reaches with
  | refl => exact bounded
  | tail _ stepped induction => exact length_of_step stepped induction

/-- The root bundle of a new traversal, and what the recursive traversal of it emits. -/
theorem shows_of_new {root : Bytes} {rootId : FixedBytes 32} {format : BundleFormat}
    {traversal : BundleTraversal}
    (opened : BundleTraversal.new reader root rootId format = .ok traversal) :
    ∃ entries, listEntries reader root format = .ok entries ∧
      ShowsAll traversal [⟨⟨rootId, []⟩, entries⟩] ∧ traversal.stack.length ≤ maxBundleDepth := by
  simp only [BundleTraversal.new, Checked.bind_eq_ok, Checked.pure_eq_ok] at opened
  obtain ⟨items, opened, rfl⟩ := opened
  obtain ⟨_, entries, delivers⟩ := BundleItems.delivers_of_checked opened
  exact ⟨entries, listEntries_of_checked opened delivers,
    .cons ⟨rfl, entries, delivers, rfl⟩ .nil, Nat.one_le_ofNat⟩

/-- What a traversal of a root bundle delivers is what the recursive traversal of it emits. -/
theorem walk_of_delivers {rounds : Nat} {root : Bytes} {rootId : FixedBytes 32}
    {format : BundleFormat} {traversal : BundleTraversal} {all : List Occurrence}
    (opened : BundleTraversal.new reader root rootId format = .ok traversal)
    (full : Cursor.Delivers
      (BundleTraversal.nextMatching crypto reader filter height rounds) traversal all) :
    ∃ entries, listEntries reader root format = .ok entries ∧
      walk (visitEntry crypto reader filter height) nestingError (maxBundleDepth - 1) ⟨rootId, []⟩
        entries = ⟨all, .ok ()⟩ := by
  obtain ⟨entries, listed, shown, _⟩ := shows_of_new opened
  have delivers := (Cursor.delivers_alike (advance_alike step_alike rounds) shown).mp full
  have emits := emission_of_delivers Nat.one_le_ofNat delivers
  rw [emission, emission, Emission.append_nil] at emits
  exact ⟨entries, listed, emits⟩

theorem delivers_of_walk {root : Bytes} {rootId : FixedBytes 32}
    {format : BundleFormat} {traversal : BundleTraversal} {all : List Occurrence}
    {entries : List BundleEntry}
    (opened : BundleTraversal.new reader root rootId format = .ok traversal)
    (listed : listEntries reader root format = .ok entries)
    (emits : walk (visitEntry crypto reader filter height) nestingError (maxBundleDepth - 1)
      ⟨rootId, []⟩ entries = ⟨all, .ok ()⟩) :
    ∃ enough, ∀ rounds, enough ≤ rounds → Cursor.Delivers
      (BundleTraversal.nextMatching crypto reader filter height rounds) traversal all := by
  obtain ⟨others, otherListed, shown, _⟩ := shows_of_new opened
  obtain rfl : others = entries := by simpa using otherListed.symm.trans listed
  refine ⟨cost (visitEntry crypto reader filter height) maxBundleDepth
    [⟨⟨rootId, []⟩, others⟩] + 1, fun rounds enough => ?_⟩
  refine (Cursor.delivers_alike (advance_alike step_alike rounds) shown).mpr ?_
  refine delivers_of_emission Nat.one_le_ofNat enough ?_
  rw [emission, emission, Emission.append_nil]
  exact emits

end Bounds

/-- Filtered traversal is a filter of the full traversal, however it is cut into batches.  The
full traversal is the recursive one; every parent is the root or emitted earlier, and the stack
stays within its bound. -/
theorem filtered_traversal (crypto : CryptoSuite) (reader : JsonReader) (root : Bytes)
    (rootId : FixedBytes 32) (format : BundleFormat) (traversal : BundleTraversal) (rounds : Nat)
    (all : List Occurrence)
    (opened : BundleTraversal.new reader root rootId format = .ok traversal)
    (full : Cursor.Delivers (BundleTraversal.nextMatching crypto reader .always 0 rounds) traversal
      all)
    (filter : Rule) (height : Nat) :
    (∃ entries, listEntries reader root format = .ok entries ∧
      walk (visitEntry crypto reader .always 0) nestingError (maxBundleDepth - 1) ⟨rootId, []⟩
        entries = ⟨all, .ok ()⟩) ∧
    (∀ batchSize, 0 < batchSize → ∃ enough, ∀ rounds, enough ≤ rounds → ∃ batches,
      bundleBatches crypto reader filter height rounds batchSize traversal = .ok batches ∧
        Cursor.Cut batchSize
          (all.filter (Occurrence.kept crypto.toHashSuite filter height)) batches) ∧
    (∀ before occurrence after,
      all.filter (Occurrence.kept crypto.toHashSuite filter height) =
        before ++ occurrence :: after →
      (occurrence.location.parentId = rootId.val ∧
        occurrence.location.path = [occurrence.location.itemOffset]) ∨
      ∃ parent ∈ before, occurrence.location.parentId = parent.location.id ∧
        occurrence.location.path = parent.location.path ++ [occurrence.location.itemOffset]) ∧
    (∀ state, traversal.Reaches crypto reader filter height state →
      state.stack.length ≤ maxBundleDepth) := by
  obtain ⟨entries, listed, emits⟩ := walk_of_delivers opened full
  have filtered := walk_filtered filter height emits
  obtain ⟨enough, delivers⟩ := delivers_of_walk opened listed filtered
  refine ⟨⟨entries, listed, emits⟩, ?_, ?_, ?_⟩
  · intro batchSize positive
    refine ⟨max enough (all.length + 1), fun rounds bound => ?_⟩
    refine (delivers rounds (le_of_max_le_left bound)).parts_eq positive ?_
    exact (List.length_filter_le _ _).trans_lt (le_of_max_le_right bound)
  · intro before occurrence after split
    have outs : (walk (visitEntry crypto reader filter height) nestingError (maxBundleDepth - 1)
        ⟨rootId, []⟩ entries).outs = before ++ occurrence :: after := by
      rw [filtered, ← split]
    obtain ⟨chain, descends, _, sublist⟩ := exists_descends outs
    rcases parent_of_descends descends with ⟨_, parentId, path⟩ | ⟨parent, member, same⟩
    · exact .inl ⟨parentId, path⟩
    · exact .inr ⟨parent, sublist.subset member, same⟩
  · intro state reaches
    exact length_of_reaches reaches (shows_of_new opened).choose_spec.2.2

/-- The bytes that hexadecimal text spells. -/
def ofHex (text : String) : Bytes := (decodeHex (utf8 text)).getD []

/-- The key that signs the sampled items. -/
def sampleKey : Bytes :=
  ofHex "03a107bff3ce10be1d70dd18e74bc09967e4d6309ba50d5f1ddc8664125531b8"

/-- The signature of the sampled item that is a bundle. -/
def bundleSignature : Bytes :=
  ofHex "9ca208082b9b1a11549042fe28e2cd1a98b6bbf2ce3f491319ec00a8eb95fb1a" ++
    ofHex "8d7eb08e29ea2cda07954b083204a17a41ccbc09fcf99e349af92d725b51e40e"

/-- The signature of the sampled item inside it. -/
def innerSignature : Bytes :=
  ofHex "eb6b5acfe20fe7d84b8df7c58a1af7b71362e56abdc932b2b1e78815733acd93" ++
    ofHex "801d5617a03e8b6bfa683d3bb9ddcb0aa03e9769d982ad5d918575f25aafc708"

/-- The libraries as they treat the sampled items, whose signatures are valid. -/
def sampleCrypto : CryptoSuite where
  toHashSuite := sha2Suite
  keccak := fun _ => ⟨List.replicate 32 0, by simp⟩
  ed25519Key := fun key => decide (key = sampleKey)
  ed25519Verify := fun key _ signature =>
    decide (key = sampleKey ∧ (signature = bundleSignature ∨ signature = innerSignature))
  secp256k1Key := fun _ => false
  secp256k1Signature := fun _ => false
  secp256k1Verify := fun _ _ _ => false
  secp256k1Recover := fun _ _ _ => none
  rsaPss := fun _ _ _ => false

/-- A reader for content that is not JSON. -/
def sampleReader : JsonReader where
  document := fun _ => ⟨0, [], .error "expected value", .ok ()⟩
  asString := fun _ => none
  asTags := fun _ => none

/-- A data item with an Ed25519 signature by the sampled key. -/
def sampleItem (signature : Bytes) (tagCount : Nat) (rawTags data : Bytes) : Bytes :=
  [2, 0] ++ signature ++ sampleKey ++ [0, 0] ++ (bigEndian 8 tagCount).reverse ++
    (bigEndian 8 rawTags.length).reverse ++ rawTags ++ data

/-- A binary bundle of one signed item. -/
def sampleBundle (signature item : Bytes) : Bytes :=
  (bigEndian 32 1).reverse ++ (bigEndian 32 item.length).reverse ++
    (sha2Suite.sha256 [signature]).val ++ item

def sampleBundleTags : Bytes :=
  [4, 26] ++ utf8 "Bundle-Format" ++ [12] ++ utf8 "binary" ++
    [28] ++ utf8 "Bundle-Version" ++ [10] ++ utf8 "2.0.0" ++ [0]

/-- A root bundle that holds a bundle that holds an item. -/
def sampleRoot : Bytes :=
  sampleBundle bundleSignature (sampleItem bundleSignature 2 sampleBundleTags
    (sampleBundle innerSignature (sampleItem innerSignature 0 [] (utf8 "hi"))))

def sampleRootId : FixedBytes 32 := ⟨List.replicate 32 9, by simp⟩

theorem filtered_traversal_sample :
    ∃ traversal all,
      BundleTraversal.new sampleReader sampleRoot sampleRootId .binary = .ok traversal ∧
      Cursor.Delivers (BundleTraversal.nextMatching sampleCrypto sampleReader .always 0 4) traversal
        all ∧
      ∃ enough, ∀ rounds, enough ≤ rounds → ∃ batches,
        bundleBatches sampleCrypto sampleReader .never 7 rounds 1 traversal = .ok batches ∧
          Cursor.Cut 1 (all.filter (Occurrence.kept sha2Suite .never 7)) batches := by
  obtain ⟨_, done⟩ := Checked.exists_of_isOk
    (BundleTraversal.new sampleReader sampleRoot sampleRootId .binary >>= fun traversal =>
      Cursor.fold (BundleTraversal.nextMatching sampleCrypto sampleReader .always 0 4)
        (fun count _ => pure (count + 1)) 3 0 traversal) (by decide +kernel)
  obtain ⟨traversal, opened, counted⟩ := Checked.bind_eq_ok.mp done
  obtain ⟨all, full, _⟩ := Cursor.delivers_of_fold counted
  exact ⟨traversal, all, opened, full, (filtered_traversal sampleCrypto sampleReader sampleRoot
    sampleRootId .binary traversal 4 all opened full .never 7).2.1 1 Nat.one_pos⟩

end ArIoGateway
