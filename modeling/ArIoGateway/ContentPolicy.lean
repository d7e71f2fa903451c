import ArIoGateway.AntRecords
import ArIoGateway.SandboxLabels

/-!
# Blocked content

A policy blocks contents by their id or hash, and names.  Every content is looked up in it before it
is fetched and again with its hash, and it is shown only on the host of its label, of the label of a
manifest that leads to it, or of a name.
-/

namespace ArIoGateway

open Octets

inductive BlockedKind where
  | id
  | hash
  | name
deriving DecidableEq

/-- A row of `content_blocklist`. -/
structure BlockedContent where
  kind : BlockedKind
  value : String
  reason : Option String

/-- What is found where the policy is looked up: there may be no database, and the query may fail. -/
inductive ContentPolicy where
  | absent
  | failing
  | rows (rows : List BlockedContent)

namespace ContentPolicy

/-- The reason of a row for the value, or else of one for the hash. -/
def reasonOf (rows : List BlockedContent) (kind : BlockedKind) (value : String)
    (hash : Option String) : Option String :=
  let byValue := rows.find? fun row => row.kind = kind ∧ row.value = value
  let byHash := rows.find? fun row => row.kind = .hash ∧ some row.value = hash
  (byValue.or byHash).map fun row => row.reason.getD ""

/-- `blocking_reason`: a target that is no id is a name. -/
def blockingReason (policy : ContentPolicy) (target : String) (hash : Option String) :
    Checked (Option String) :=
  match policy with
  | absent => pure none
  | failing => .error "blocking policy lookup timed out"
  | rows known =>
      match decodeFixed 32 target "data ID" with
      | .ok _ => pure (reasonOf known .id target hash)
      | .error _ => pure (reasonOf known .name target.toLower hash)

/-- The policy has a row for an id. -/
def Blocks (policy : ContentPolicy) (id : FixedBytes 32) : Prop :=
  ∃ known, policy = rows known ∧ ∃ row ∈ known, row.kind = .id ∧ row.value = base64Text id.val

end ContentPolicy

/-- What a request is answered with. -/
inductive ServedAnswer where
  | unavailable
  | unmatched
  | invalidId
  | notFound
  | failed
  | paymentRequired
  | info
  | redirect (host : Bytes)
  | directory (id : String)
  | blocked (target reason : String)
  | content (id : String)
deriving DecidableEq

/-- A content that was fetched: its id and hash, and whether it is a manifest. -/
structure RetrievedContent where
  id : String
  hash : String
  isManifest : Bool

/-- How contents are fetched, and where the path of a manifest leads. -/
structure ContentSource where
  retrieve : String → Option RetrievedContent
  resolve : String → String → Checked (Option String)

/-- What a name is resolved to: the id, the rank of its record and how many records are paid for. -/
structure ServedName where
  resolvedId : String
  index : Nat
  limit : Nat

/-- The names and the content of the root hosts, and how a name is resolved. -/
structure ServedNames where
  apexName : RootHost → Option String
  apexTxId : Option String
  resolve : String → Checked (Option ServedName)

/-- `is_data_id_shape`. -/
def isDataIdShape (id : String) : Bool :=
  let bytes := utf8 id
  bytes.length = 43 ∧ (bytes.all fun byte =>
    (65 ≤ byte.toNat ∧ byte.toNat ≤ 90) ∨ (97 ≤ byte.toNat ∧ byte.toNat ≤ 122) ∨
      isAsciiDigit byte ∨ byte = 45 ∨ byte = 95) = true

/-- `blocked_response`. -/
def blockedResponse (policy : ContentPolicy) (target : String) (hash : Option String) :
    Option ServedAnswer :=
  match policy.blockingReason target hash with
  | .ok none => none
  | .ok (some reason) => some (.blocked target reason)
  | .error _ => some .unavailable

/-- Fetch a content between two look-ups in the policy, the second of them with its hash. -/
def retrieveAllowed (policy : ContentPolicy) (source : ContentSource) (id : String)
    (known : RetrievedContent → String) (next : RetrievedContent → ServedAnswer) : ServedAnswer :=
  match blockedResponse policy id none with
  | some refusal => refusal
  | none =>
      match source.retrieve id with
      | none => .failed
      | some verified =>
          (blockedResponse policy (known verified) (some verified.hash)).getD (next verified)

/-- `retrieve_response`. -/
def retrieveResponse (policy : ContentPolicy) (source : ContentSource) (id manifestPath : String)
    (addTrailingSlash : Bool) : ServedAnswer :=
  retrieveAllowed policy source id (fun _ => id) fun verified =>
    if verified.isManifest then
      match source.resolve id manifestPath with
      | .error _ => .failed
      | .ok none => .notFound
      | .ok (some target) =>
          if addTrailingSlash then .directory id
          else retrieveAllowed policy source target (fun _ => target) fun _ => .content target
    else .content id

/-- The requests for contents. -/
inductive ContentRequest where
  | root
  | raw (id : String)
  | path (path : String) (endsInSlash : Bool)

/-- A path up to its first slash, and what is behind it. -/
def splitPath (path : String) : String × String :=
  (String.ofList (path.toList.takeWhile (· ≠ '/')),
    String.ofList ((path.toList.dropWhile (· ≠ '/')).drop 1))

section Requests

variable (authority : Bytes → Option Bytes) (roots : List RootHost) (policy : ContentPolicy)
  (names : ServedNames) (source : ContentSource)

/-- `sandbox_redirect`: the host of the label of an id, unless the request is for it. -/
def sandboxRedirect (header : Option Bytes) (id : FixedBytes 32) : Option Bytes := do
  let host := requestHost authority header
  let root ← (host.bind (rootHost roots)).or roots.head?
  let sandboxHost := hostBelow (sandboxName id) root
  if host = some sandboxHost then none else some sandboxHost

/-- Whether a request is for a root host. -/
def isRootHost (header : Option Bytes) : Bool :=
  (requestHost authority header).any fun host =>
    (rootHost roots host).any fun root => root.val = host

/-- `arns_name`. -/
def arnsName (header : Option Bytes) : Option String := do
  let host ← requestHost authority header
  let root ← rootHost roots host
  if host = root.val then names.apexName root
  else
    let front ← stripEnd root.val host
    let front ← stripEnd [46] front
    let name := front.takeWhile (· ≠ 46)
    if name = utf8 "www" ∨ 51 < name.length ∧ 95 ∉ name then none
    else
      let text := String.ofList (name.map fun byte => Char.ofNat byte.toNat)
      let _ ← (splitArnsName text).toOption
      some text

/-- `serve_arns_path`. -/
def serveArnsPath (header : Option Bytes) (path : String) : ServedAnswer :=
  match names.apexTxId, isRootHost authority roots header with
  | some id, true => retrieveResponse policy source id path false
  | _, _ =>
      match arnsName authority roots names header with
      | none => .notFound
      | some name =>
          match blockedResponse policy name none with
          | some refusal => refusal
          | none =>
              match names.resolve name with
              | .error _ => .failed
              | .ok none => .notFound
              | .ok (some resolution) =>
                  if resolution.limit < resolution.index then .paymentRequired
                  else retrieveResponse policy source resolution.resolvedId path false

/-- Whether a request is for the content of a root host, or for a name. -/
def isNamed (header : Option Bytes) : Bool :=
  (names.apexTxId.isSome && isRootHost authority roots header) ||
    (arnsName authority roots names header).isSome

/-- `serve_arns`. -/
def serveArns (permitted : Bool) (header : Option Bytes) : ServedAnswer :=
  if isNamed authority roots names header then
    if permitted then serveArnsPath authority roots policy names source header "" else .unavailable
  else
    match requestSandboxId authority roots header with
    | some id =>
        if permitted then (blockedResponse policy (base64Text id.val) none).getD .notFound
        else .unavailable
    | none => .info

/-- `serve_raw`. -/
def serveRaw (permitted : Bool) (header : Option Bytes) (id : String) : ServedAnswer :=
  if permitted then
    if isDataIdShape id then
      match decodeFixed 32 id "data ID" with
      | .error _ => .invalidId
      | .ok decoded =>
          match sandboxRedirect authority roots header decoded with
          | some host => .redirect host
          | none => retrieveAllowed policy source id RetrievedContent.id fun _ => .content id
    else .unmatched
  else .unavailable

/-- `serve_path`. -/
def servePath (permitted : Bool) (header : Option Bytes) (path : String) (endsInSlash : Bool) :
    ServedAnswer :=
  if permitted then
    let (id, manifestPath) := splitPath path
    match decodeFixed 32 id "data ID" with
    | .ok decoded =>
        match sandboxRedirect authority roots header decoded with
        | some host => .redirect host
        | none =>
            retrieveResponse policy source id manifestPath (manifestPath.isEmpty && !endsInSlash)
    | .error _ =>
        if isDataIdShape id then .invalidId
        else if isNamed authority roots names header then
          serveArnsPath authority roots policy names source header path
        else .unmatched
  else .unavailable

/-- The routes of the requests for contents. -/
def serveContent (permitted : Bool) (header : Option Bytes) : ContentRequest → ServedAnswer
  | .root => serveArns authority roots policy names source permitted header
  | .raw id => serveRaw authority roots policy source permitted header id
  | .path path endsInSlash =>
      servePath authority roots policy names source permitted header path endsInSlash

end Requests

/-- The id that a request names. -/
def ContentRequest.id : ContentRequest → Option (FixedBytes 32)
  | .root => none
  | .raw text => (decodeFixed 32 text "data ID").toOption
  | .path text _ => (decodeFixed 32 (splitPath text).1 "data ID").toOption

variable {authority : Bytes → Option Bytes} {roots : List RootHost} {policy : ContentPolicy}
  {names : ServedNames} {source : ContentSource}

theorem text_of_decodeFixed {text label : String} {id : FixedBytes 32}
    (decoded : decodeFixed 32 text label = .ok id) : text = base64Text id.val := by
  apply utf8_injective
  rw [utf8_base64Text, base64Encode_of_decodeB64 (decodeFixed_eq_ok.mp decoded)]

/-- The policy finds a row of a blocked id wherever the id is spelled. -/
theorem blockedResponse_of_blocks {target label : String} {hash : Option String}
    {id : FixedBytes 32} (decoded : decodeFixed 32 target label = .ok id)
    (blocks : policy.Blocks id) :
    ∃ reason, blockedResponse policy target hash = some (.blocked target reason) := by
  obtain ⟨known, rfl, row, member, kind, value⟩ := blocks
  have again : decodeFixed 32 target "data ID" = .ok id :=
    decodeFixed_eq_ok.mpr (decodeB64_label (decodeFixed_eq_ok.mp decoded))
  have found : (known.find? fun row => row.kind = .id ∧ row.value = target).isSome = true := by
    rw [List.find?_isSome]
    exact ⟨row, member, decide_eq_true ⟨kind, value.trans (text_of_decodeFixed decoded).symm⟩⟩
  obtain ⟨first, found⟩ := Option.isSome_iff_exists.mp found
  refine ⟨first.reason.getD "", ?_⟩
  simp only [blockedResponse, ContentPolicy.blockingReason, again, ContentPolicy.reasonOf, found,
    Option.some_or, Option.map_some, pure, Except.pure]

theorem blockedResponse_ne_content {target shown : String} {hash : Option String} :
    blockedResponse policy target hash ≠ some (.content shown) := by
  rw [blockedResponse]
  split <;> simp

/-- What is shown behind the look-ups has passed the first one. -/
theorem passed_of_retrieveAllowed {id shown : String} {known : RetrievedContent → String}
    {next : RetrievedContent → ServedAnswer}
    (served : retrieveAllowed policy source id known next = .content shown) :
    blockedResponse policy id none = none ∧ ∃ verified, next verified = .content shown := by
  rw [retrieveAllowed] at served
  split at served
  · next refused =>
    rw [served] at refused
    exact absurd refused blockedResponse_ne_content
  · next passed =>
    refine ⟨passed, ?_⟩
    split at served
    · cases served
    · next verified _ =>
      cases again : blockedResponse policy (known verified) (some verified.hash) with
      | none =>
          rw [again] at served
          exact ⟨verified, served⟩
      | some refusal =>
          rw [again] at served
          exact absurd (again.trans (congrArg some served)) blockedResponse_ne_content

theorem passed_of_retrieveResponse {id manifestPath shown : String} {addTrailingSlash : Bool}
    (served : retrieveResponse policy source id manifestPath addTrailingSlash = .content shown) :
    blockedResponse policy shown none = none := by
  obtain ⟨passed, verified, served⟩ := passed_of_retrieveAllowed served
  split at served
  · split at served
    · cases served
    · cases served
    · split at served
      · cases served
      · obtain ⟨passed, _, served⟩ := passed_of_retrieveAllowed served
        obtain rfl := ServedAnswer.content.inj served
        exact passed
  · obtain rfl := ServedAnswer.content.inj served
    exact passed

theorem passed_of_serveArnsPath {header : Option Bytes} {path shown : String}
    (served : serveArnsPath authority roots policy names source header path = .content shown) :
    blockedResponse policy shown none = none := by
  rw [serveArnsPath] at served
  split at served
  · exact passed_of_retrieveResponse served
  · split at served
    · cases served
    · split at served
      · next refused =>
        rw [served] at refused
        exact absurd refused blockedResponse_ne_content
      · split at served
        · cases served
        · cases served
        · split at served
          · cases served
          · exact passed_of_retrieveResponse served

/-- Whatever is requested, what is shown has been looked up in the policy. -/
theorem passed_of_serveContent {permitted : Bool} {header : Option Bytes} {request : ContentRequest}
    {shown : String}
    (served : serveContent authority roots policy names source permitted header request =
      .content shown) :
    blockedResponse policy shown none = none := by
  cases request with
  | root =>
      simp only [serveContent, serveArns] at served
      split at served
      · split at served
        · exact passed_of_serveArnsPath served
        · cases served
      · split at served
        · split at served
          · next id _ _ =>
            cases refused : blockedResponse policy (base64Text id.val) none with
            | none =>
                rw [refused] at served
                cases served
            | some refusal =>
                rw [refused] at served
                exact absurd (refused.trans (congrArg some served)) blockedResponse_ne_content
          · cases served
        · cases served
  | raw id =>
      simp only [serveContent, serveRaw] at served
      split at served
      · split at served
        · split at served
          · cases served
          · split at served
            · cases served
            · obtain ⟨passed, _, served⟩ := passed_of_retrieveAllowed served
              obtain rfl := ServedAnswer.content.inj served
              exact passed
        · cases served
      · cases served
  | path path endsInSlash =>
      simp only [serveContent, servePath] at served
      split at served
      · split at served
        · split at served
          · cases served
          · exact passed_of_retrieveResponse served
        · split at served
          · cases served
          · split at served
            · exact passed_of_serveArnsPath served
            · cases served
      · cases served

/-- A request that names an id is answered with a content only behind the redirection to the host of
its label. -/
theorem redirected_of_serveContent {permitted : Bool} {header : Option Bytes}
    {request : ContentRequest} {id : FixedBytes 32} {shown : String} (asked : request.id = some id)
    (served : serveContent authority roots policy names source permitted header request =
      .content shown) :
    sandboxRedirect authority roots header id = none := by
  cases request with
  | root => cases asked
  | raw text =>
      simp only [serveContent, serveRaw] at served
      simp only [ContentRequest.id] at asked
      split at served
      · split at served
        · cases decoded : decodeFixed 32 text "data ID" with
          | error message =>
              rw [decoded] at asked
              cases asked
          | ok other =>
              simp only [decoded] at asked served
              obtain rfl := Option.some.inj asked
              split at served
              · cases served
              · assumption
        · cases served
      · cases served
  | path path endsInSlash =>
      simp only [serveContent, servePath] at served
      simp only [ContentRequest.id] at asked
      split at served
      · cases decoded : decodeFixed 32 (splitPath path).1 "data ID" with
        | error message =>
            rw [decoded] at asked
            cases asked
        | ok other =>
            simp only [decoded] at asked served
            obtain rfl := Option.some.inj asked
            split at served
            · cases served
            · assumption
      · cases served

/-- A request that is not redirected is for the host of the label. -/
theorem sandboxLabel_of_not_redirected {header : Option Bytes} {id : FixedBytes 32}
    (some : roots ≠ []) (stays : sandboxRedirect authority roots header id = none) :
    sandboxLabel authority roots header = .some (sandboxName id) := by
  have single : 46 ∉ sandboxName id := fun dot => (sandboxName_bytes id dot).2 rfl
  obtain ⟨first, head⟩ : ∃ first, roots.head? = .some first :=
    Option.isSome_iff_exists.mp (List.isSome_head?.mpr some)
  obtain ⟨root, chosen⟩ : ∃ root,
      ((requestHost authority header).bind (rootHost roots)).or roots.head? = .some root := by
    rw [head]
    cases (requestHost authority header).bind (rootHost roots) <;> simp
  have requested : requestHost authority header = .some (hostBelow (sandboxName id) root) := by
    simpa [sandboxRedirect, chosen] using stays
  have found : rootHost roots (hostBelow (sandboxName id) root) = .some root := by
    rw [requested, Option.bind_some] at chosen
    cases inside : rootHost roots (hostBelow (sandboxName id) root) with
    | some other =>
        rw [inside] at chosen
        exact chosen
    | none =>
        -- The first root host is one, as the host is below it.
        rw [inside, Option.none_or] at chosen
        exact absurd inside (rootHost_ne_none (List.mem_of_head? chosen) _)
  exact sandboxLabel_eq_some.mpr ⟨_, root, _, requested, found, rfl, takeWhile_of_single single⟩

/-- A host with the label of an id is neither a root host nor that of a name. -/
theorem not_named_of_sandboxLabel {header : Option Bytes} {id : FixedBytes 32}
    (labelled : sandboxLabel authority roots header = some (sandboxName id)) :
    isNamed authority roots names header = false := by
  obtain ⟨host, root, front, requested, found, rfl, label⟩ := sandboxLabel_eq_some.mp labelled
  have below : root.val ≠ hostBelow front root := by
    intro same
    have widths := congrArg List.length same
    rw [hostBelow, List.length_append, List.length_cons] at widths
    omega
  have plain : 95 ∉ sandboxName id := fun member =>
    absurd (sandboxName_bytes id member).1 (by decide)
  have spelled : hostBelow front root = (front ++ [46]) ++ root.val := by
    rw [hostBelow, List.append_cons]
  have outer : stripEnd root.val (hostBelow front root) = some (front ++ [46]) :=
    stripEnd_eq_some.mpr spelled
  have inner : stripEnd [46] (front ++ [46]) = some front := stripEnd_eq_some.mpr rfl
  have nameless : arnsName authority roots names header = none := by
    simp only [arnsName, requested, found, outer, inner, label, if_neg below.symm,
      Option.bind_eq_bind, Option.bind_some]
    rw [if_pos (.inr ⟨by rw [sandboxName_length]; decide, plain⟩)]
  simp [isNamed, isRootHost, requested, found, below, nameless]

/-- Below a root host the label of an id is decoded to the id unless its host is a root host of its
own.  A label that is accepted is the one of its id, so that two labels never have one id.  Whatever
is requested, no content is shown that is blocked by its id; a request that names an id is answered
with a content only under the label of this id; and on that host a blocked id is answered with the
reason. -/
theorem sandbox_labels_canonical (authority : Bytes → Option Bytes) (roots : List RootHost)
    (library : ∀ host, PlainHost host → authority host = some host) :
    (∀ id, ∀ root ∈ roots, (∀ other ∈ roots, other.val ≠ hostBelow (sandboxName id) root) →
      requestSandboxId authority roots (some (hostBelow (sandboxName id) root)) = some id) ∧
    (∀ header id, requestSandboxId authority roots header = some id →
      sandboxLabel authority roots header = some (sandboxName id)) ∧
    (∀ header other id, requestSandboxId authority roots header = some id →
      requestSandboxId authority roots other = some id →
      sandboxLabel authority roots header = sandboxLabel authority roots other) ∧
    ∀ (policy : ContentPolicy) (names : ServedNames) (source : ContentSource) (permitted : Bool)
      (header : Option Bytes) (request : ContentRequest),
      (∀ shown, serveContent authority roots policy names source permitted header request =
          .content shown →
        (∀ id label, decodeFixed 32 shown label = .ok id → ¬ policy.Blocks id) ∧
          ∀ id, request.id = some id → roots ≠ [] →
            sandboxLabel authority roots header = some (sandboxName id)) ∧
      ∀ id, policy.Blocks id → requestSandboxId authority roots header = some id →
        ∃ reason, serveContent authority roots policy names source true header .root =
          .blocked (base64Text id.val) reason := by
  refine ⟨fun id root member outside => ?_, fun header id accepted => ?_,
    fun header other id first second => ?_, fun policy names source permitted header request =>
      ⟨fun shown served => ⟨fun id label decoded blocks => ?_, fun id asked some => ?_⟩,
        fun id blocks accepted => ?_⟩⟩
  · apply requestSandboxId_eq_some.mpr
    apply sandboxLabel_below library member (sandboxName_below id root) _ outside
    intro dot
    exact (sandboxName_bytes id dot).2 rfl
  · exact requestSandboxId_eq_some.mp accepted
  · rw [requestSandboxId_eq_some.mp first, requestSandboxId_eq_some.mp second]
  · obtain ⟨reason, refused⟩ := @blockedResponse_of_blocks _ _ _ none _ decoded blocks
    rw [passed_of_serveContent served] at refused
    cases refused
  · exact sandboxLabel_of_not_redirected some (redirected_of_serveContent asked served)
  · obtain ⟨reason, refused⟩ := @blockedResponse_of_blocks _ _ "data ID" none _
      (decodeFixed_base64Text id _) blocks
    have unnamed := @not_named_of_sandboxLabel _ _ names _ _ (requestSandboxId_eq_some.mp accepted)
    exact ⟨reason, by simp [serveContent, serveArns, unnamed, accepted, refused]⟩

/-- The host in front of the port. -/
def hostOfAuthority (text : Bytes) : Option Bytes := some (text.takeWhile (· ≠ 58))

theorem hostOfAuthority_plain {host : Bytes} (plain : PlainHost host) :
    hostOfAuthority host = some host := by
  apply congrArg some
  apply List.takeWhile_eq_self_iff.mpr
  intro byte member
  apply decide_eq_true
  rintro rfl
  exact absurd (plain.bytes 58 member) (by decide)

def exampleRoot : RootHost := ⟨utf8 "ar.example", by decide⟩

def exampleId : FixedBytes 32 := ⟨List.replicate 32 255, rfl⟩

/-- The host of a label is a root host of its own. -/
def exampleShadow : RootHost := ⟨hostBelow (sandboxName exampleId) exampleRoot, by decide +kernel⟩

/-- The policy that blocks an id. -/
def examplePolicy : ContentPolicy := .rows [⟨.id, base64Text exampleId.val, some "law"⟩]

def exampleNames : ServedNames := ⟨fun _ => none, none, fun _ => .ok none⟩

def exampleSource : ContentSource := ⟨fun id => some ⟨id, "", false⟩, fun _ _ => .ok none⟩

theorem sandbox_labels_canonical_sample :
    requestSandboxId hostOfAuthority [exampleRoot]
        (some (hostBelow (sandboxName exampleId) exampleRoot)) = some exampleId ∧
      ∃ reason, serveContent hostOfAuthority [exampleRoot] examplePolicy exampleNames exampleSource
        true (some (hostBelow (sandboxName exampleId) exampleRoot)) .root =
          .blocked (base64Text exampleId.val) reason := by
  obtain ⟨decoded, _, _, served⟩ := sandbox_labels_canonical hostOfAuthority [exampleRoot]
    fun _ plain => hostOfAuthority_plain plain
  have accepted := decoded exampleId exampleRoot (by simp) (by
    intro other member same
    rw [List.mem_singleton.mp member] at same
    have widths := congrArg List.length same
    rw [hostBelow, List.length_append, List.length_cons] at widths
    omega)
  have blocks : examplePolicy.Blocks exampleId := ⟨_, rfl, _, List.mem_cons_self, rfl, rfl⟩
  exact ⟨accepted, (served examplePolicy exampleNames exampleSource true _ .root).2 exampleId blocks
    accepted⟩

/-- A longer root host takes the host of a label. -/
theorem sandbox_label_shadowed :
    ¬∀ id, ∀ root ∈ [exampleRoot, exampleShadow],
      requestSandboxId hostOfAuthority [exampleRoot, exampleShadow]
        (some (hostBelow (sandboxName id) root)) = some id := by
  intro all
  have refused : requestSandboxId hostOfAuthority [exampleRoot, exampleShadow]
      (some (hostBelow (sandboxName exampleId) exampleRoot)) = none := by
    decide
  have claimed := all exampleId exampleRoot (by simp)
  rw [refused] at claimed
  cases claimed

end ArIoGateway
