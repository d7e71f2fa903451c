import ArIoGateway.Transactions
import ArIoGateway.Traversal

/-!
# Discovery of bundled items

The search for an item from a hint: parents that are not transactions are looked up in turn, and
their own parents are put at the end of a queue.  What sources answer is arbitrary, in every attempt
anew; how many paths are tried and how long they get is not.
-/

namespace ArIoGateway

open Octets

def maxDiscoveryLocations : Nat := 2
def maxDiscoveryPaths : Nat := 64

/-- An edge of a discovery response. -/
structure DiscoveryEdge where
  id : String
  bundledIn : Option String
  size : String

/-- A parent of an item that a source knows of. -/
structure ExternalHint where
  parentId : String
  dataSize : String

/-- Where a search starts. -/
inductive BundleHint where
  | indexed (indexed : IndexedBundle)
  | external (hint : ExternalHint)

/-- The content of a root transaction. -/
structure RootContent where
  bytes : Bytes
  blockHeight : Nat
  blockHash : Option (FixedBytes 48)
  cacheHit : Bool
  stableAnchor : Bool

/-- A root transaction with its tags. -/
structure IndexingRoot where
  content : RootContent
  tags : List Tag

/-- Why a transaction could not be authenticated. -/
inductive RootFailure where
  | contentNotFound
  | failed (message : String)

/-- What an attempt would get: the cache entry and the transaction of the parent, the edges of the
discovery response for it, and whether its block is current and stable in the end. -/
structure SourceAnswers where
  cached : Checked (Option (RootContent × Option (List Tag)))
  authenticated : Except RootFailure IndexingRoot
  discovered : Checked (List DiscoveryEdge)
  anchored : Checked (Bool × Bool)

/-- Add the parent that an edge names, unless it is known already. -/
def addEdge (id : String) (parents : List (String × Nat)) (edge : DiscoveryEdge) :
    Checked (List (String × Nat)) := do
  Checked.ensure (edge.id = id) "discovery returned the wrong data item"
  let _ ← decodeFixed 32 edge.id "discovered data item ID"
  match edge.bundledIn.filter (· ≠ "") with
  | none => pure parents
  | some parentId => do
      let _ ← (decodeFixed 32 parentId "discovered parent ID").mapError fun _ =>
        "discovery returned an invalid parent bundle ID"
      Checked.ensure (parentId ≠ id) "data item cannot be its own parent"
      let size ← parseU128 edge.size "discovered data item size"
      pure (if (parentId, size) ∈ parents then parents else parents ++ [(parentId, size)])

/-- `discover_from`, with the response that the source gives. -/
def discoverFrom (id : String) (response : Checked (List DiscoveryEdge)) :
    Checked (List ExternalHint) := do
  let edges ← response
  Checked.ensure (edges.length ≤ maxDiscoveryLocations)
    "discovery response exceeds location limit"
  let parents ← edges.foldlM (addEdge id) []
  pure (parents.map fun parent => ⟨parent.1, decimalString parent.2⟩)

/-- The text of a header value: bytes that no header may have are refused first. -/
def headerText (value : Bytes) (invalid nonAscii : String) : Checked String := do
  Checked.ensure (value.all (fun byte => (32 ≤ byte.toNat ∧ byte ≠ 127) ∨ byte = 9) = true) invalid
  Checked.ensure (value.all (fun byte => (32 ≤ byte.toNat ∧ byte.toNat < 127) ∨ byte = 9) = true)
    nonAscii
  Checked.context (fromUtf8 value) nonAscii

/-- `response_content_encoding`. -/
def responseContentEncoding (value : Option String) : Checked (Option String) := do
  match value with
  | none => pure none
  | some text => do
      let _ ← headerText (utf8 text) "invalid Content-Encoding tag" "non-ASCII Content-Encoding tag"
      pure (some text)

/-- `item_content_type`: the first tag decides. -/
def itemContentType (tags : List (Bytes × Bytes)) : Checked String :=
  match tags.find? fun tag => eqIgnoreAsciiCase tag.1 (utf8 "Content-Type") with
  | some tag => headerText tag.2 "invalid Content-Type tag" "non-ASCII Content-Type tag"
  | none => pure "application/octet-stream"

/-- `require_bundle_tags`. -/
def requireBundleTags (tags : List Tag) : Checked BundleFormat := do
  let decoded ← tags.mapM fun tag => do
    pure (← decodeB64 tag.name "tag name", ← decodeB64 tag.value "tag value")
  BundleFormat.fromPairs decoded

/-- The ancestors of an item below a root, the nearest to the root last, with their sizes. -/
abbrev Ancestors := List (FixedBytes 32 × Nat)

/-- What a retrieval returns. -/
structure RetrievedItem where
  id : String
  bytes : Bytes
  contentLength : Nat
  blockHeight : Nat
  blockHash : Option (FixedBytes 48)
  cacheHit : Bool
  stableAnchor : Bool
  contentType : String
  contentEncoding : Option String
  bodyHash : FixedBytes 32
  indexingRoot : IndexingRoot

/-- What a search is for. -/
structure SearchRequest where
  id : String
  expectedId : FixedBytes 32
  hint : BundleHint
  hintedSize : Nat
  maxDataSize : Nat

/-- The state of a search.  The paths that were taken from the queue and those for which a parent was
looked up are kept for the record. -/
structure Search where
  pending : List (String × Ancestors)
  scheduled : Nat := 1
  failures : List String := []
  tried : List (String × Ancestors) := []
  visited : List (FixedBytes 32 × Ancestors) := []

/-- How a search ends. -/
inductive SearchOutcome where
  | found (item : RetrievedItem)
  | failed (failures : List String)

/-- The parent of a path, which neither is the item nor occurs among the ancestors. -/
def checkPath (expectedId : FixedBytes 32) (parentId : String) (ancestors : Ancestors) :
    Checked (FixedBytes 32) := do
  let parent ← decodeFixed 32 parentId "bundle parent ID"
  Checked.ensure (parent ≠ expectedId ∧ ∀ ancestor ∈ ancestors, ancestor.1 ≠ parent)
    "cyclic bundle ancestry"
  pure parent

/-- The root transaction of a path, when the parent is a transaction. -/
def loadRoot (answers : SourceAnswers) : Checked (Option IndexingRoot) := do
  match ← answers.cached with
  | some (content, some tags) => pure (some ⟨content, tags⟩)
  | _ =>
      match answers.authenticated with
      | .ok root => pure (some root)
      | .error .contentNotFound => pure none
      | .error (.failed message) => .error message

/-- Put the parents of a parent at the end of the queue.  Those that were put there stay when a later
one fails. -/
def pushHints (parent : FixedBytes 32) (ancestors : Ancestors) :
    List ExternalHint → Search → Search × Checked Unit
  | [], state => (state, pure ())
  | hint :: hints, state =>
      if state.scheduled < maxDiscoveryPaths then
        match parseU128 hint.dataSize "discovered ancestor size" with
        | .error message => (state, .error message)
        | .ok size =>
            pushHints parent ancestors hints
              { state with
                pending := state.pending ++ [(hint.parentId, ancestors ++ [(parent, size)])]
                scheduled := state.scheduled + 1 }
      else (state, .error "bundle discovery path limit exceeded")

/-- Look for the parents of a parent that is not a transaction. -/
def expand (hint : BundleHint) (parentId : String) (parent : FixedBytes 32) (ancestors : Ancestors)
    (answers : SourceAnswers) (state : Search) : Search × Checked Unit :=
  let absent := s!"bundle parent transaction {parentId} was not found"
  match hint with
  | .indexed _ => (state, .error absent)
  | .external _ =>
      match discoverFrom parentId answers.discovered with
      | .error message => (state, .error message)
      | .ok [] => (state, .error absent)
      | .ok hints =>
          if ancestors.length + 1 < maxBundleDepth then pushHints parent ancestors hints state
          else (state, .error s!"nested bundle exceeds maximum depth {maxBundleDepth}")

section Verification

variable (crypto : CryptoSuite) (reader : JsonReader)

/-- Descend from a root through ancestors, the nearest to the root first, to the item. -/
def descendTo (request : SearchRequest) (bytes : Bytes) (format : BundleFormat) :
    Ancestors → Checked VerifiedItem
  | [] => do
      let (item, _) ← verifyBundleItem crypto reader bytes format request.expectedId none
        (some request.maxDataSize)
      pure item
  | (ancestorId, size) :: rest => do
      let (ancestor, _) ← verifyBundleItem crypto reader bytes format ancestorId none none
      Checked.ensure (ancestor.data.length = size)
        "discovered ancestor size does not match verified payload"
      let format ← Checked.context ancestor.bundleFormat
        "discovered ancestor is not a supported bundle"
      descendTo request ancestor.data format rest

/-- The item below a root. -/
def verifyBelow (request : SearchRequest) (root : IndexingRoot) (ancestors : Ancestors) :
    Checked VerifiedItem := do
  let format ← requireBundleTags root.tags
  match request.hint with
  | .indexed indexed =>
      verifyIndexedBundle crypto reader root.content.bytes format request.expectedId indexed
        (some request.maxDataSize)
  | .external _ => descendTo crypto reader request root.content.bytes format ancestors.reverse

/-- `current_anchor`: a stable block stays current. -/
def currentAnchor (content : RootContent) (answers : SourceAnswers) : Checked (Bool × Bool) :=
  if content.stableAnchor then pure (true, true) else answers.anchored

/-- The answer to a request from the root of a path. -/
def retrieveFrom (request : SearchRequest) (root : IndexingRoot) (ancestors : Ancestors)
    (answers : SourceAnswers) : Checked RetrievedItem := do
  let item ← verifyBelow crypto reader request root ancestors
  Checked.ensure (item.data.length = request.hintedSize)
    "discovered data item size does not match verified payload"
  let contentEncoding ← responseContentEncoding
    (optionalTextTag item.tags (utf8 "Content-Encoding"))
  let contentType ← itemContentType item.tags
  let (current, stableAnchor) ← currentAnchor root.content answers
  Checked.ensure (current = true) "bundle block changed during retrieval"
  pure
    { id := request.id
      bytes := item.data
      contentLength := item.data.length
      blockHeight := root.content.blockHeight
      blockHash := root.content.blockHash
      cacheHit := root.content.cacheHit
      stableAnchor, contentType, contentEncoding
      bodyHash := item.bodyHash
      indexingRoot := root }

/-- Try one path. -/
def attempt (request : SearchRequest) (answers : SourceAnswers) (parentId : String)
    (ancestors : Ancestors) (state : Search) : Search × Checked (Option RetrievedItem) :=
  match checkPath request.expectedId parentId ancestors with
  | .error message => (state, .error message)
  | .ok parent =>
      let state := { state with visited := state.visited ++ [(parent, ancestors)] }
      match loadRoot answers with
      | .error message => (state, .error message)
      | .ok none =>
          let (state, expanded) := expand request.hint parentId parent ancestors answers state
          (state, (fun _ => none) <$> expanded)
      | .ok (some root) => (state, some <$> retrieveFrom crypto reader request root ancestors answers)

/-- Take a path from the queue and try it. -/
def Search.step (request : SearchRequest) (answers : SourceAnswers) (state : Search) :
    Search × Option SearchOutcome :=
  match state.pending with
  | [] => (state, some (.failed state.failures))
  | (parentId, ancestors) :: pending =>
      let taken := { state with pending, tried := state.tried ++ [(parentId, ancestors)] }
      match attempt crypto reader request answers parentId ancestors taken with
      | (state, .ok (some item)) => (state, some (.found item))
      | (state, .ok none) => (state, none)
      | (state, .error message) => ({ state with failures := state.failures ++ [message] }, none)

/-- Go on until the search ends, for a number of rounds at most.  Every attempt has its own
answers. -/
def Search.run (request : SearchRequest) (answers : Nat → SourceAnswers) :
    (rounds : Nat) → Search → Search × Option SearchOutcome
  | 0, state => (state, none)
  | rounds + 1, state =>
      match state.step crypto reader request (answers state.tried.length) with
      | (state, some outcome) => (state, some outcome)
      | (state, none) => Search.run request answers rounds state

/-- The parent and the size that a hint names. -/
def hintedParent : BundleHint → Checked (String × Nat)
  | .indexed indexed =>
      pure (base64Text indexed.rootId, indexed.dataSize)
  | .external hint => do
      pure (hint.parentId, ← parseU128 hint.dataSize "discovered data item size")

/-- The request and the first state of a search. -/
def startSearch (maxDataSize : Nat) (id : String) (hint : BundleHint) :
    Checked (SearchRequest × Search) := do
  let expectedId ← decodeFixed 32 id "data item ID"
  let (parentId, size) ← hintedParent hint
  Checked.ensure (size ≤ maxDataSize) "transaction exceeds configured data size limit"
  pure (⟨id, expectedId, hint, size, maxDataSize⟩, { pending := [(parentId, [])] })

/-- `retrieve_bundled_with_hint`: the last state and the outcome. -/
def retrieveBundledWithHint (maxDataSize : Nat) (id : String) (hint : BundleHint)
    (answers : Nat → SourceAnswers) : Checked (Search × Option SearchOutcome) := do
  let (request, start) ← startSearch maxDataSize id hint
  pure (start.run crypto reader request answers (maxDiscoveryPaths + 1))

end Verification

/-- No identifier occurs twice, and the item itself does not occur. -/
def Acyclic (expectedId : FixedBytes 32) (ids : List (FixedBytes 32)) : Prop :=
  ids.Nodup ∧ expectedId ∉ ids

/-- What holds of a search in every state: all paths that were scheduled are tried or wait, there are
not too many of them, none is too long, and ancestors are acyclic, with the parent from the moment it
is looked up. -/
structure Search.Bounded (expectedId : FixedBytes 32) (state : Search) : Prop where
  count : state.tried.length + state.pending.length = state.scheduled
  limit : state.scheduled ≤ maxDiscoveryPaths
  short : ∀ path ∈ state.tried ++ state.pending, path.2.length < maxBundleDepth
  waiting : ∀ path ∈ state.pending, Acyclic expectedId (path.2.map Prod.fst)
  visited : ∀ visit ∈ state.visited, Acyclic expectedId (visit.1 :: visit.2.map Prod.fst) ∧
    ∃ parentId, decodeFixed 32 parentId "bundle parent ID" = .ok visit.1 ∧
      (parentId, visit.2) ∈ state.tried

theorem checkPath_eq_ok {expectedId parent : FixedBytes 32} {parentId : String}
    {ancestors : Ancestors} :
    checkPath expectedId parentId ancestors = .ok parent ↔
      decodeFixed 32 parentId "bundle parent ID" = .ok parent ∧ parent ≠ expectedId ∧
        ∀ ancestor ∈ ancestors, ancestor.1 ≠ parent := by
  simp only [checkPath, Checked.bind_eq_ok, Checked.ensure_eq_ok, Checked.pure_eq_ok]
  constructor
  · rintro ⟨_, decoded, _, fresh, rfl⟩
    exact ⟨decoded, fresh⟩
  · rintro ⟨decoded, fresh⟩
    exact ⟨parent, decoded, (), fresh, rfl⟩

/-- A parent that passes the check extends acyclic ancestors. -/
theorem acyclic_of_checkPath {expectedId parent : FixedBytes 32} {parentId : String}
    {ancestors : Ancestors} (checked : checkPath expectedId parentId ancestors = .ok parent)
    (acyclic : Acyclic expectedId (ancestors.map Prod.fst)) :
    Acyclic expectedId (parent :: ancestors.map Prod.fst) := by
  obtain ⟨_, other, fresh⟩ := checkPath_eq_ok.mp checked
  refine ⟨List.nodup_cons.mpr ⟨fun member => ?_, acyclic.1⟩, ?_⟩
  · obtain ⟨ancestor, inside, same⟩ := List.mem_map.mp member
    exact fresh ancestor inside same
  · rw [List.mem_cons, not_or]
    exact ⟨fun same => other same.symm, acyclic.2⟩

theorem acyclic_append {expectedId parent : FixedBytes 32} {ancestors : Ancestors} {size : Nat}
    (acyclic : Acyclic expectedId (parent :: ancestors.map Prod.fst)) :
    Acyclic expectedId ((ancestors ++ [(parent, size)]).map Prod.fst) := by
  have rotated : ((ancestors ++ [(parent, size)]).map Prod.fst).Perm
      (parent :: ancestors.map Prod.fst) := by
    rw [List.map_append]
    exact List.perm_append_comm
  exact ⟨rotated.nodup_iff.mpr acyclic.1, fun member => acyclic.2 (rotated.mem_iff.mp member)⟩

/-- What expanding a path does to a search, whether or not it fails on the way: it adds paths behind
the others while there is room. -/
structure Expanded (parent : FixedBytes 32) (ancestors : Ancestors) (before after : Search) :
    Prop where
  kept : after.failures = before.failures ∧ after.tried = before.tried ∧
    after.visited = before.visited
  added : ∃ paths, after.pending = before.pending ++ paths ∧
    after.scheduled = before.scheduled + paths.length ∧
    (paths ≠ [] → ancestors.length + 1 < maxBundleDepth) ∧
    ∀ path ∈ paths, ∃ size, path.2 = ancestors ++ [(parent, size)]
  limit : before.scheduled ≤ maxDiscoveryPaths → after.scheduled ≤ maxDiscoveryPaths

theorem Expanded.refl (parent : FixedBytes 32) (ancestors : Ancestors) (state : Search) :
    Expanded parent ancestors state state :=
  ⟨⟨rfl, rfl, rfl⟩, ⟨[], by simp⟩, id⟩

theorem expanded_pushHints {parent : FixedBytes 32} {ancestors : Ancestors}
    (room : ancestors.length + 1 < maxBundleDepth) (hints : List ExternalHint) (state : Search) :
    Expanded parent ancestors state (pushHints parent ancestors hints state).1 := by
  induction hints generalizing state with
  | nil => exact .refl parent ancestors state
  | cons hint hints induction =>
      rw [pushHints]
      split
      · next free =>
          split
          · exact .refl parent ancestors state
          · next size _ =>
              obtain ⟨⟨failures, tried, visited⟩, ⟨paths, pending, scheduled, _, same⟩, limit⟩ :=
                induction { state with
                  pending := state.pending ++ [(hint.parentId, ancestors ++ [(parent, size)])]
                  scheduled := state.scheduled + 1 }
              refine ⟨⟨failures, tried, visited⟩,
                ⟨(hint.parentId, ancestors ++ [(parent, size)]) :: paths, ?_, ?_, fun _ => room,
                  ?_⟩, fun _ => limit free⟩
              · rw [pending, List.append_assoc]
                rfl
              · rw [scheduled, List.length_cons]
                simp only
                omega
              · rintro path (_ | ⟨_, member⟩)
                · exact ⟨size, rfl⟩
                · exact same path member
      · exact .refl parent ancestors state

theorem expanded_expand (hint : BundleHint) (parentId : String) (parent : FixedBytes 32)
    (ancestors : Ancestors) (answers : SourceAnswers) (state : Search) :
    Expanded parent ancestors state
      (expand hint parentId parent ancestors answers state).1 := by
  unfold expand
  cases hint with
  | indexed _ => exact .refl parent ancestors state
  | external _ =>
      cases discoverFrom parentId answers.discovered with
      | error message => exact .refl parent ancestors state
      | ok hints =>
          cases hints with
          | nil => exact .refl parent ancestors state
          | cons hint hints =>
              simp only
              split
              · next room => exact expanded_pushHints room _ _
              · exact .refl parent ancestors state

section Runs

variable {crypto : CryptoSuite} {reader : JsonReader} {request : SearchRequest}

/-- What an attempt does: a path that fails the check changes nothing; otherwise the parent is
looked up, and the search grows by its parents at most. -/
theorem attempt_cases {answers : SourceAnswers} {parentId : String} {ancestors : Ancestors}
    {before after : Search} {result : Checked (Option RetrievedItem)}
    (tried : attempt crypto reader request answers parentId ancestors before = (after, result)) :
    (after = before ∧ ∃ message, result = .error message) ∨
    ∃ parent, checkPath request.expectedId parentId ancestors = .ok parent ∧
      Expanded parent ancestors
        { before with visited := before.visited ++ [(parent, ancestors)] } after ∧
      ∀ item, result = .ok (some item) → ∃ root, loadRoot answers = .ok (some root) ∧
        retrieveFrom crypto reader request root ancestors answers = .ok item := by
  unfold attempt at tried
  split at tried
  · next message _ =>
      obtain ⟨rfl, rfl⟩ := Prod.mk.inj tried
      exact .inl ⟨rfl, message, rfl⟩
  · next parent checked =>
      refine .inr ⟨parent, checked, ?_⟩
      split at tried
      · obtain ⟨rfl, rfl⟩ := Prod.mk.inj tried
        exact ⟨.refl _ _ _, by simp⟩
      · obtain ⟨rfl, rfl⟩ := Prod.mk.inj tried
        refine ⟨expanded_expand _ _ _ _ _ _, fun item found => ?_⟩
        obtain ⟨_, _, none⟩ := Checked.map_eq_ok.mp found
        cases none
      · next root loaded =>
          obtain ⟨rfl, rfl⟩ := Prod.mk.inj tried
          refine ⟨.refl _ _ _, fun item found => ⟨root, loaded, ?_⟩⟩
          obtain ⟨_, retrieved, same⟩ := Checked.map_eq_ok.mp found
          exact Option.some.inj same ▸ retrieved

/-- A path that is taken from the queue is tried from now on. -/
theorem Search.Bounded.take {expectedId : FixedBytes 32} {state : Search} {path : String × Ancestors}
    {pending : List (String × Ancestors)} (bounded : state.Bounded expectedId)
    (queue : state.pending = path :: pending) :
    Bounded expectedId { state with pending, tried := state.tried ++ [path] } := by
  obtain ⟨count, limit, short, waiting, visited⟩ := bounded
  rw [queue] at count short waiting
  refine ⟨?_, limit, ?_, fun other member => waiting other (List.mem_cons_of_mem _ member), ?_⟩
  · simp only [List.length_append, List.length_cons, List.length_nil] at count ⊢
    omega
  · intro other member
    exact short other (by simpa using member)
  · intro visit member
    obtain ⟨acyclic, parentId, decoded, inside⟩ := visited visit member
    exact ⟨acyclic, parentId, decoded, List.mem_append_left _ inside⟩

theorem Search.Bounded.expand {expectedId parent : FixedBytes 32} {parentId : String}
    {ancestors : Ancestors} {before after : Search} (bounded : before.Bounded expectedId)
    (tried : (parentId, ancestors) ∈ before.tried)
    (checked : checkPath expectedId parentId ancestors = .ok parent)
    (acyclic : Acyclic expectedId (ancestors.map Prod.fst))
    (expanded : Expanded parent ancestors
      { before with visited := before.visited ++ [(parent, ancestors)] } after) :
    after.Bounded expectedId := by
  obtain ⟨⟨_, sameTried, sameVisited⟩, ⟨paths, pending, scheduled, room, same⟩, limit⟩ := expanded
  have extended := acyclic_of_checkPath checked acyclic
  refine ⟨?_, limit bounded.limit, ?_, ?_, ?_⟩
  · have count := bounded.count
    rw [sameTried, pending, scheduled, List.length_append]
    simp only
    omega
  · intro path member
    rw [sameTried, pending, ← List.append_assoc] at member
    rcases List.mem_append.mp member with member | member
    · exact bounded.short path member
    · obtain ⟨size, long⟩ := same path member
      have room := room (List.ne_nil_of_mem member)
      rw [long, List.length_append]
      exact room
  · intro path member
    rw [pending] at member
    rcases List.mem_append.mp member with member | member
    · exact bounded.waiting path member
    · obtain ⟨size, long⟩ := same path member
      rw [long]
      exact acyclic_append extended
  · intro visit member
    rw [sameVisited] at member
    rw [sameTried]
    rcases List.mem_append.mp member with member | member
    · exact bounded.visited visit member
    · obtain rfl := List.mem_singleton.mp member
      exact ⟨extended, parentId, (checkPath_eq_ok.mp checked).1, tried⟩

/-- A step keeps a search bounded, and takes a path from the queue unless the queue is empty. -/
theorem Search.Bounded.step {answers : SourceAnswers} {state after : Search}
    {outcome : Option SearchOutcome} (bounded : state.Bounded request.expectedId)
    (stepped : state.step crypto reader request answers = (after, outcome)) :
    after.Bounded request.expectedId ∧
      (outcome = none → after.tried.length = state.tried.length + 1) := by
  unfold Search.step at stepped
  split at stepped
  · obtain ⟨rfl, rfl⟩ := Prod.mk.inj stepped
    exact ⟨bounded, by simp⟩
  · next parentId ancestors pending queue =>
      have taken := bounded.take queue
      have acyclic : Acyclic request.expectedId (ancestors.map Prod.fst) :=
        bounded.waiting _ (queue ▸ List.mem_cons_self)
      obtain ⟨next, result, tried⟩ : ∃ next result, attempt crypto reader request answers parentId
          ancestors { state with pending, tried := state.tried ++ [(parentId, ancestors)] } =
            (next, result) := ⟨_, _, rfl⟩
      have attempted : next.Bounded request.expectedId ∧
          next.tried = state.tried ++ [(parentId, ancestors)] := by
        rcases attempt_cases tried with ⟨rfl, _⟩ | ⟨parent, checked, expanded, _⟩
        · exact ⟨taken, rfl⟩
        · exact ⟨taken.expand (by simp) checked acyclic expanded, expanded.kept.2.1⟩
      obtain ⟨nextBounded, nextTried⟩ := attempted
      simp only [tried] at stepped
      have length : next.tried.length = state.tried.length + 1 := by simp [nextTried]
      cases result with
      | error message =>
          obtain ⟨rfl, rfl⟩ := Prod.mk.inj stepped
          exact ⟨⟨nextBounded.count, nextBounded.limit, nextBounded.short, nextBounded.waiting,
            nextBounded.visited⟩, fun _ => length⟩
      | ok found =>
          cases found with
          | none =>
              obtain ⟨rfl, rfl⟩ := Prod.mk.inj stepped
              exact ⟨nextBounded, fun _ => length⟩
          | some item =>
              obtain ⟨rfl, rfl⟩ := Prod.mk.inj stepped
              exact ⟨nextBounded, by simp⟩

/-- A result of a step was retrieved from the root of a path that passed the check in it. -/
theorem Search.found_of_step {answers : SourceAnswers} {state after : Search} {item : RetrievedItem}
    (stepped : state.step crypto reader request answers = (after, some (.found item))) :
    ∃ visit ∈ after.visited, ∃ root, loadRoot answers = .ok (some root) ∧
      retrieveFrom crypto reader request root visit.2 answers = .ok item := by
  unfold Search.step at stepped
  split at stepped
  · simp at stepped
  · next parentId ancestors pending queue =>
      obtain ⟨next, result, tried⟩ : ∃ next result, attempt crypto reader request answers parentId
          ancestors { state with pending, tried := state.tried ++ [(parentId, ancestors)] } =
            (next, result) := ⟨_, _, rfl⟩
      simp only [tried] at stepped
      cases result with
      | error message => simp at stepped
      | ok found =>
          cases found with
          | none => simp at stepped
          | some other =>
              simp only [Prod.mk.injEq, Option.some.injEq, SearchOutcome.found.injEq] at stepped
              obtain ⟨rfl, rfl⟩ := stepped
              rcases attempt_cases tried with ⟨_, _, failed⟩ | ⟨parent, _, expanded, retrieved⟩
              · cases failed
              · obtain ⟨root, loaded, done⟩ := retrieved other rfl
                refine ⟨(parent, ancestors), ?_, root, loaded, done⟩
                rw [expanded.kept.2.2]
                simp

/-- A run of a bounded search stays bounded, and ends when it has a round more than there are paths
left to schedule. -/
theorem Search.Bounded.run {answers : Nat → SourceAnswers} {rounds : Nat} {state after : Search}
    {outcome : Option SearchOutcome} (bounded : state.Bounded request.expectedId)
    (ran : state.run crypto reader request answers rounds = (after, outcome)) :
    after.Bounded request.expectedId ∧
      (maxDiscoveryPaths < state.tried.length + rounds → outcome.isSome = true) ∧
      ∀ item, outcome = some (.found item) → ∃ index, ∃ visit ∈ after.visited, ∃ root,
        loadRoot (answers index) = .ok (some root) ∧
          retrieveFrom crypto reader request root visit.2 (answers index) = .ok item := by
  induction rounds generalizing state with
  | zero =>
      obtain ⟨rfl, rfl⟩ := Prod.mk.inj ran
      have count := bounded.count
      have limit := bounded.limit
      exact ⟨bounded, fun long => by omega, by simp⟩
  | succ rounds induction =>
      rw [Search.run] at ran
      obtain ⟨next, result, stepped⟩ : ∃ next result, state.step crypto reader request
          (answers state.tried.length) = (next, result) := ⟨_, _, rfl⟩
      obtain ⟨nextBounded, longer⟩ := bounded.step stepped
      simp only [stepped] at ran
      cases result with
      | none =>
          obtain ⟨afterBounded, ends, found⟩ := induction nextBounded ran
          have longer := longer rfl
          exact ⟨afterBounded, fun long => ends (by omega), found⟩
      | some result =>
          obtain ⟨rfl, rfl⟩ := Prod.mk.inj ran
          refine ⟨nextBounded, fun _ => rfl, fun item found => ?_⟩
          obtain rfl := Option.some.inj found
          exact ⟨_, Search.found_of_step stepped⟩

end Runs

/-- An item that verifies below an ancestor chain: every ancestor is a bundle of the announced size in
the one before it. -/
inductive VerifiedAlong (crypto : CryptoSuite) (reader : JsonReader) (request : SearchRequest) :
    Bytes → BundleFormat → Ancestors → VerifiedItem → Prop
  | item {bytes format item offset} :
      verifyBundleItem crypto reader bytes format request.expectedId none
        (some request.maxDataSize) = .ok (item, offset) →
      VerifiedAlong crypto reader request bytes format [] item
  | inside {bytes format ancestorId size rest ancestor offset next item} :
      verifyBundleItem crypto reader bytes format ancestorId none none = .ok (ancestor, offset) →
      ancestor.data.length = size → ancestor.bundleFormat = some next →
      VerifiedAlong crypto reader request ancestor.data next rest item →
      VerifiedAlong crypto reader request bytes format ((ancestorId, size) :: rest) item

/-- What a retrieved item is: the payload of an item of the announced size that verifies below its
root along the path that was tried. -/
structure VerifiedBelow (crypto : CryptoSuite) (reader : JsonReader) (request : SearchRequest)
    (ancestors : Ancestors) (retrieved : RetrievedItem) : Prop where
  verified : ∃ format item, requireBundleTags retrieved.indexingRoot.tags = .ok format ∧
    retrieved.bytes = item.data ∧ retrieved.bodyHash = item.bodyHash ∧
    item.data.length = request.hintedSize ∧
    match request.hint with
    | .indexed indexed => verifyIndexedBundle crypto reader
        retrieved.indexingRoot.content.bytes format request.expectedId indexed
        (some request.maxDataSize) = .ok item
    | .external _ => VerifiedAlong crypto reader request
        retrieved.indexingRoot.content.bytes format ancestors.reverse item
  length : retrieved.contentLength = request.hintedSize
  id : retrieved.id = request.id

theorem verifiedAlong_of_descendTo {crypto : CryptoSuite} {reader : JsonReader}
    {request : SearchRequest} {bytes : Bytes} {format : BundleFormat} {ancestors : Ancestors}
    {item : VerifiedItem}
    (descended : descendTo crypto reader request bytes format ancestors = .ok item) :
    VerifiedAlong crypto reader request bytes format ancestors item := by
  induction ancestors generalizing bytes format with
  | nil =>
      simp only [descendTo, Checked.bind_eq_ok, Checked.pure_eq_ok] at descended
      obtain ⟨⟨_, offset⟩, verified, rfl⟩ := descended
      exact .item verified
  | cons ancestor rest induction =>
      obtain ⟨ancestorId, size⟩ := ancestor
      simp only [descendTo, Checked.bind_eq_ok, Checked.ensure_eq_ok,
        Checked.context_eq_ok] at descended
      obtain ⟨⟨parent, offset⟩, verified, _, sized, next, bundle, descended⟩ := descended
      exact .inside verified sized bundle (induction descended)

theorem verifiedBelow_of_retrieveFrom {crypto : CryptoSuite} {reader : JsonReader}
    {request : SearchRequest} {root : IndexingRoot} {ancestors : Ancestors}
    {answers : SourceAnswers} {retrieved : RetrievedItem}
    (done : retrieveFrom crypto reader request root ancestors answers = .ok retrieved) :
    retrieved.indexingRoot = root ∧
      VerifiedBelow crypto reader request ancestors retrieved := by
  simp only [retrieveFrom, verifyBelow, Checked.bind_eq_ok, Checked.ensure_eq_ok,
    Checked.pure_eq_ok] at done
  obtain ⟨item, ⟨format, tagged, verified⟩, _, sized, _, _, _, _, _, _, _, _, rfl⟩ := done
  refine ⟨rfl, ⟨format, item, tagged, rfl, rfl, sized, ?_⟩, sized, rfl⟩
  cases hinted : request.hint with
  | indexed indexed => simpa only [hinted] using verified
  | external _ =>
      simp only [hinted] at verified
      exact verifiedAlong_of_descendTo verified

theorem bounded_startSearch {maxDataSize : Nat} {id : String} {hint : BundleHint}
    {request : SearchRequest} {start : Search}
    (started : startSearch maxDataSize id hint = .ok (request, start)) :
    start.Bounded request.expectedId ∧ start.tried = [] ∧ request.id = id ∧
      request.hint = hint ∧ decodeFixed 32 id "data item ID" = .ok request.expectedId := by
  simp only [startSearch, Checked.bind_eq_ok, Checked.pure_eq_ok, Prod.mk.injEq] at started
  obtain ⟨expectedId, decoded, ⟨parentId, size⟩, _, _, _, rfl, rfl⟩ := started
  refine ⟨⟨rfl, by simp [maxDiscoveryPaths], ?_, ?_, by simp⟩, rfl, rfl, rfl, decoded⟩
  · simp [maxBundleDepth]
  · simp [Acyclic]

/-- However sources answer, the search for a bundled item ends, tries a bounded number of paths of a
bounded length, looks up parents along acyclic paths only, and returns nothing but an item of the
announced size that verified along a path it tried. -/
theorem bundled_search_bounded (crypto : CryptoSuite) (reader : JsonReader) (maxDataSize : Nat)
    (id : String) (hint : BundleHint) (answers : Nat → SourceAnswers) (request : SearchRequest)
    (start : Search) (started : startSearch maxDataSize id hint = .ok (request, start)) :
    ∃ last outcome,
      retrieveBundledWithHint crypto reader maxDataSize id hint answers =
        .ok (last, some outcome) ∧
      last.tried.length + last.pending.length ≤ maxDiscoveryPaths ∧
      (∀ path ∈ last.tried ++ last.pending, path.2.length < maxBundleDepth) ∧
      (∀ visit ∈ last.visited, Acyclic request.expectedId (visit.1 :: visit.2.map Prod.fst) ∧
        ∃ parentId, decodeFixed 32 parentId "bundle parent ID" = .ok visit.1 ∧
          (parentId, visit.2) ∈ last.tried) ∧
      ∀ item, outcome = .found item → ∃ index, ∃ visit ∈ last.visited,
        loadRoot (answers index) = .ok (some item.indexingRoot) ∧
          VerifiedBelow crypto reader request visit.2 item := by
  obtain ⟨bounded, untried, _⟩ := bounded_startSearch started
  obtain ⟨last, outcome, ran⟩ : ∃ last outcome, start.run crypto reader request answers
      (maxDiscoveryPaths + 1) = (last, outcome) := ⟨_, _, rfl⟩
  obtain ⟨lastBounded, ends, found⟩ := bounded.run ran
  have ended := ends (by rw [untried]; simp)
  obtain ⟨outcome, rfl⟩ := Option.isSome_iff_exists.mp ended
  refine ⟨last, outcome, ?_, lastBounded.count.le.trans lastBounded.limit, lastBounded.short,
    lastBounded.visited, ?_⟩
  · simp [retrieveBundledWithHint, started, ran]
  · rintro item rfl
    obtain ⟨index, visit, member, root, loaded, done⟩ := found item rfl
    obtain ⟨rfl, verified⟩ := verifiedBelow_of_retrieveFrom done
    exact ⟨index, visit, member, loaded, verified⟩

/-- The identifier of an item, from its signature. -/
def sampleItemId (signature : Bytes) : String := base64Text (sha2Suite.sha256 [signature]).val

/-- The first source knows the parent of the bundle only; the parent is a transaction. -/
def sampleAnswers (attempt : Nat) : SourceAnswers where
  cached := pure none
  authenticated :=
    if attempt = 0 then .error .contentNotFound
    else .ok ⟨⟨sampleRoot, 5, none, false, false⟩,
      [⟨base64Text (utf8 "Bundle-Format"), base64Text (utf8 "binary")⟩,
        ⟨base64Text (utf8 "Bundle-Version"), base64Text (utf8 "2.0.0")⟩]⟩
  discovered := pure [⟨sampleItemId bundleSignature, some (base64Text sampleRootId.val),
    decimalString (sampleBundle innerSignature (sampleItem innerSignature 0 [] (utf8 "hi"))).length⟩]
  anchored := pure (true, true)

/-- The content that a search ends with. -/
def SearchOutcome.bytes : SearchOutcome → Option Bytes
  | .found item => some item.bytes
  | .failed _ => none

def sampleHint : BundleHint := .external ⟨sampleItemId bundleSignature, "2"⟩

theorem bundled_search_bounded_sample : ∃ request start last item,
    startSearch 100 (sampleItemId innerSignature) sampleHint = .ok (request, start) ∧
    retrieveBundledWithHint sampleCrypto sampleReader 100 (sampleItemId innerSignature) sampleHint
      sampleAnswers = .ok (last, some (.found item)) ∧
    item.bytes = utf8 "hi" ∧ last.tried.length + last.pending.length ≤ maxDiscoveryPaths ∧
    ∃ visit ∈ last.visited, VerifiedBelow sampleCrypto sampleReader request visit.2 item := by
  obtain ⟨⟨request, start⟩, started⟩ := Checked.exists_of_isOk
    (startSearch 100 (sampleItemId innerSignature) sampleHint) (by decide +kernel)
  obtain ⟨last, outcome, ran, paths, _, _, found⟩ := bundled_search_bounded sampleCrypto
    sampleReader 100 (sampleItemId innerSignature) sampleHint sampleAnswers request start started
  have ends : (retrieveBundledWithHint sampleCrypto sampleReader 100 (sampleItemId innerSignature)
      sampleHint sampleAnswers).map (fun result => result.2.map SearchOutcome.bytes) =
        .ok (some (some (utf8 "hi"))) := by decide +kernel
  rw [ran] at ends
  cases outcome with
  | failed failures => cases ends
  | found item =>
      obtain ⟨_, visit, visited, _, verified⟩ := found item rfl
      refine ⟨request, start, last, item, started, ran, ?_, paths, visit, visited, verified⟩
      simpa [SearchOutcome.bytes, Except.map] using ends

end ArIoGateway
