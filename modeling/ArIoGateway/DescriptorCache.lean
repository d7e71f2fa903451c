import ArIoGateway.Codec
import ArIoGateway.Foundation.Ranking
import ArIoGateway.Foundation.Runs
import Mathlib.Algebra.Order.BigOperators.Group.List
import Mathlib.Data.List.Lex

/-!
# The cache of descriptors

Descriptors of contents are kept in a table within a number and a size.  A call that brings one in
waits for the lock of the budget, gives up the descriptors that were used least recently, and then
puts in its own or finds it there.  What it does is seen by others when it commits.
-/

namespace ArIoGateway

open Octets Ranking

/-- A row of `cache_objects`. -/
structure CachedObject where
  id : FixedBytes 32
  blockHeight : Nat
  blockHash : Bytes
  inlineHash : Option (FixedBytes 32)
  metadata : Bytes
  lastAccess : Int
deriving DecidableEq

/-- What a call of `cache_content` brings. -/
structure CacheRequest where
  id : FixedBytes 32
  height : Nat
  blockHash : Bytes
  metadata : Bytes
  inlineHash : Option (FixedBytes 32)
deriving DecidableEq

/-- The limits on the number of descriptors and on their size. -/
structure CacheLimits where
  entries : Nat
  bytes : Nat

/-- The order of the window: by the last access, the latest first, then by id. -/
def MoreRecent (left right : CachedObject) : Prop :=
  right.lastAccess < left.lastAccess ∨
    left.lastAccess = right.lastAccess ∧ left.id.val ≤ right.id.val

instance : DecidableRel MoreRecent := fun left right =>
  inferInstanceAs (Decidable (right.lastAccess < left.lastAccess ∨
    left.lastAccess = right.lastAccess ∧ left.id.val ≤ right.id.val))

/-- The rows that are ranked, all but the one that is kept. -/
def byRecency (keep : Option (FixedBytes 32)) (objects : List CachedObject) : List CachedObject :=
  (objects.filter fun object => keep ≠ some object.id).insertionSort MoreRecent

def CachedObject.weight (object : CachedObject) : Nat := object.metadata.length

/-- `prune_cache_objects`: the ids that it deletes. -/
def pruneCacheObjects (keep : Option (FixedBytes 32)) (entries bytes : Nat)
    (objects : List CachedObject) : List (FixedBytes 32) :=
  (beyond CachedObject.weight entries bytes (byRecency keep objects)).map CachedObject.id

/-- The row that a request puts in. -/
def CacheRequest.object (request : CacheRequest) (now : Int) : CachedObject where
  id := request.id
  blockHeight := request.height
  blockHash := request.blockHash
  inlineHash := request.inlineHash
  metadata := request.metadata
  lastAccess := now

/-- A row but for its last access. -/
def CachedObject.descriptor (object : CachedObject) : CacheRequest where
  id := object.id
  height := object.blockHeight
  blockHash := object.blockHash
  metadata := object.metadata
  inlineHash := object.inlineHash

def touchObject (now : Int) (object : CachedObject) : CachedObject :=
  { object with lastAccess := now }

/-- Put a row in, or find it and touch it. -/
def admitObject (request : CacheRequest) (now : Int) (objects : List CachedObject) :
    List CachedObject × Except String Bool :=
  match objects.find? fun object => object.id = request.id with
  | none => (objects ++ [request.object now], .ok true)
  | some stored =>
      if stored.descriptor = request then
        (objects.map fun object =>
          if object.id = request.id then touchObject now object else object, .ok true)
      else (objects, .error "conflicting immutable cached content descriptor")

inductive CacheCall where
  | content (request : CacheRequest)
  | trim

inductive CacheCallPhase where
  | waiting
  | done (result : Except String Bool)

/-- The committed rows, the calls with how far they are, and the call that has the lock with the ids
that it deletes when it commits. -/
structure DescriptorCache where
  objects : List CachedObject
  calls : List (CacheCall × CacheCallPhase)
  lock : Option (Nat × List (FixedBytes 32))

/-- What happens, in any order.  A request finds its block canonical or not; a call goes on with the
lock, commits, or fails while it waits or has the lock; rows are touched, and deleted with their
blocks or blobs. -/
inductive CacheAction where
  | content (request : CacheRequest) (anchor : Bool)
  | trim
  | prune (call : Nat)
  | commit (call : Nat) (now : Int)
  | abort (call : Nat) (message : String)
  | touch (ids : List (FixedBytes 32)) (now : Int)
  | cascade (ids : List (FixedBytes 32))

def CacheCall.keep : CacheCall → Option (FixedBytes 32)
  | content request => some request.id
  | trim => none

/-- The limits that a call prunes with, without what its own row takes. -/
def CacheCall.room (limits : CacheLimits) : CacheCall → CacheLimits
  | content request => ⟨limits.entries - 1, limits.bytes - request.metadata.length⟩
  | trim => limits

/-- The limits are numbers of PostgreSQL. -/
def CacheLimits.isSql (limits : CacheLimits) : Bool :=
  limits.entries < 2 ^ 63 ∧ limits.bytes < 2 ^ 63

/-- `cache_content` up to the lock.  Without an anchor nothing is pruned and nothing put in. -/
def beginContent (limits : CacheLimits) (request : CacheRequest) (anchor : Bool) : CacheCallPhase :=
  if request.blockHash.length ≠ 48 then .done (.error "cache block hash must be 48 bytes")
  else if 1048576 < request.metadata.length then
    .done (.error "cache metadata exceeds 1 MiB")
  else if limits.entries = 0 ∨ limits.bytes < request.metadata.length then .done (.ok false)
  else if 2 ^ 63 ≤ request.height then
    .done (.error "block height exceeds PostgreSQL bigint")
  else if ¬(CacheCall.room limits (.content request)).isSql then
    .done (.error "out of range integral type conversion attempted")
  else if anchor then .waiting
  else .done (.ok false)

/-- `trim_cache_objects` up to the lock. -/
def beginTrim (limits : CacheLimits) : CacheCallPhase :=
  if limits.isSql then .waiting
  else .done (.error "out of range integral type conversion attempted")

/-- What a call leaves of the rows, and its result. -/
def CacheCall.apply (now : Int) (removed : List (FixedBytes 32)) (objects : List CachedObject) :
    CacheCall → List CachedObject × Except String Bool
  | content request => admitObject request now (objects.filter fun object => object.id ∉ removed)
  | trim => (objects.filter fun object => object.id ∉ removed, .ok true)

namespace DescriptorCache

def start (objects : List CachedObject) : DescriptorCache := ⟨objects, [], none⟩

def step (limits : CacheLimits) (state : DescriptorCache) : CacheAction → Option DescriptorCache
  | .content request anchor =>
      some { state with
        calls := state.calls ++ [(.content request, beginContent limits request anchor)] }
  | .trim => some { state with calls := state.calls ++ [(.trim, beginTrim limits)] }
  | .prune place =>
      match state.calls[place]?, state.lock with
      | some (call, .waiting), none =>
          let room := call.room limits
          some { state with
            lock := some (place,
              pruneCacheObjects call.keep room.entries room.bytes state.objects) }
      | _, _ => none
  | .commit place now =>
      match state.calls[place]?, state.lock with
      | some (call, .waiting), some (holder, removed) =>
          if holder = place then
            let (objects, result) := call.apply now removed state.objects
            some {
              objects
              calls := state.calls.set place (call, .done result)
              lock := none }
          else none
      | _, _ => none
  | .abort place message =>
      match state.calls[place]? with
      | some (call, .waiting) =>
          some { state with
            calls := state.calls.set place (call, .done (.error message))
            lock := state.lock.filter fun held => held.1 ≠ place }
      | _ => none
  | .touch ids now =>
      some { state with
        objects := state.objects.map fun object =>
          if ids.length ≤ 4096 ∧ object.id ∈ ids ∧ object.lastAccess < now - 60 then
            touchObject now object
          else object }
  | .cascade ids =>
      some { state with objects := state.objects.filter fun object => object.id ∉ ids }

end DescriptorCache

/-- The rows have different ids and are within the limits. -/
structure CacheLimits.Within (limits : CacheLimits) (objects : List CachedObject) : Prop where
  distinct : (objects.map CachedObject.id).Nodup
  fits : Fits CachedObject.weight limits.entries limits.bytes objects

/-- Some rows and what a call brings fit together. -/
def CacheCall.FitsWith (limits : CacheLimits) (objects : List CachedObject) : CacheCall → Prop
  | content request => objects.length + 1 ≤ limits.entries ∧
      (objects.map CachedObject.weight).sum + request.metadata.length ≤ limits.bytes
  | trim => Fits CachedObject.weight limits.entries limits.bytes objects

theorem fits_of_sublist {objects others : List CachedObject} {count room : Nat}
    (sublist : objects.Sublist others) (fits : Fits CachedObject.weight count room others) :
    Fits CachedObject.weight count room objects := by
  refine ⟨sublist.length_le.trans fits.1, le_trans ?_ fits.2⟩
  exact (sublist.map CachedObject.weight).sum_le_sum fun _ _ => Nat.zero_le _

theorem CacheLimits.Within.sublist {limits : CacheLimits} {objects others : List CachedObject}
    (within : limits.Within others) (sublist : objects.Sublist others) : limits.Within objects :=
  ⟨within.distinct.sublist (sublist.map _), fits_of_sublist sublist within.fits⟩

theorem CachedObject.eq_of_id {objects : List CachedObject} {object other : CachedObject}
    (distinct : (objects.map CachedObject.id).Nodup) (member : object ∈ objects)
    (otherMember : other ∈ objects) (same : object.id = other.id) : object = other :=
  List.inj_on_of_nodup_map distinct member otherMember same

theorem CacheCall.FitsWith.sublist {limits : CacheLimits} {call : CacheCall}
    {objects others : List CachedObject} (fits : call.FitsWith limits others)
    (sublist : objects.Sublist others) : call.FitsWith limits objects := by
  have parts := (sublist.map CachedObject.weight).sum_le_sum fun _ _ => Nat.zero_le _
  have count := sublist.length_le
  cases call with
  | content request => exact ⟨by have := fits.1; omega, by have := fits.2; omega⟩
  | trim => exact fits_of_sublist sublist fits

theorem CacheCall.FitsWith.perm {limits : CacheLimits} {call : CacheCall}
    {objects others : List CachedObject} (fits : call.FitsWith limits others)
    (same : objects.Perm others) : call.FitsWith limits objects := by
  have parts := (same.map CachedObject.weight).sum_eq
  have count := same.length_eq
  cases call with
  | content request => exact ⟨by rw [count]; exact fits.1, by rw [parts]; exact fits.2⟩
  | trim => exact ⟨by rw [count]; exact fits.1, by rw [parts]; exact fits.2⟩

/-- Rows that may have been touched. -/
def Touches (touch : CachedObject → CachedObject) : Prop :=
  ∀ object, (touch object).descriptor = object.descriptor

theorem touches_if (touched : CachedObject → Prop) [DecidablePred touched] (now : Int) :
    Touches fun object => if touched object then touchObject now object else object := by
  intro object
  dsimp only
  split
  · rfl
  · rfl

section Touched

variable {touch : CachedObject → CachedObject} (touches : Touches touch)

include touches

theorem Touches.id (object : CachedObject) : (touch object).id = object.id :=
  congrArg CacheRequest.id (touches object)

theorem Touches.weight (object : CachedObject) : (touch object).weight = object.weight :=
  congrArg (fun descriptor : CacheRequest => descriptor.metadata.length) (touches object)

theorem Touches.map_weight (objects : List CachedObject) :
    (objects.map touch).map CachedObject.weight = objects.map CachedObject.weight := by
  rw [List.map_map]
  exact List.map_congr_left fun object _ => touches.weight object

theorem Touches.map_id (objects : List CachedObject) :
    (objects.map touch).map CachedObject.id = objects.map CachedObject.id := by
  rw [List.map_map]
  exact List.map_congr_left fun object _ => touches.id object

theorem Touches.within {limits : CacheLimits} {objects : List CachedObject}
    (within : limits.Within objects) : limits.Within (objects.map touch) := by
  constructor
  · rw [touches.map_id]
    exact within.distinct
  · obtain ⟨count, room⟩ := within.fits
    exact ⟨by rwa [List.length_map], by rwa [touches.map_weight]⟩

theorem Touches.fitsWith {limits : CacheLimits} {call : CacheCall} {objects : List CachedObject}
    (fits : call.FitsWith limits objects) : call.FitsWith limits (objects.map touch) := by
  cases call with
  | content request =>
      exact ⟨by rw [List.length_map]; exact fits.1, by rw [touches.map_weight]; exact fits.2⟩
  | trim =>
      exact ⟨by rw [List.length_map]; exact fits.1, by rw [touches.map_weight]; exact fits.2⟩

theorem Touches.filter (kept : FixedBytes 32 → Bool) (objects : List CachedObject) :
    ((objects.map touch).filter fun object => kept object.id) =
      (objects.filter fun object => kept object.id).map touch := by
  rw [List.filter_map]
  congr 1
  apply List.filter_congr
  intro object _
  rw [Function.comp_apply, touches.id]

end Touched

/-- The rows that are left beside the one that is kept. -/
def leftBeside (keep : Option (FixedBytes 32)) (removed : List (FixedBytes 32))
    (objects : List CachedObject) : List CachedObject :=
  objects.filter fun object => object.id ∉ removed ∧ keep ≠ some object.id

theorem byRecency_perm (keep : Option (FixedBytes 32)) (objects : List CachedObject) :
    (byRecency keep objects).Perm (objects.filter fun object => keep ≠ some object.id) :=
  List.perm_insertionSort MoreRecent _

/-- What is pruned lies behind the longest prefix that fits, and what is left is this prefix. -/
theorem prune_spec {objects : List CachedObject}
    (distinctIds : (objects.map CachedObject.id).Nodup) (keep : Option (FixedBytes 32))
    (entries bytes : Nat) :
    ∃ kept rest, byRecency keep objects = kept ++ rest ∧
      pruneCacheObjects keep entries bytes objects = rest.map CachedObject.id ∧
      Fits CachedObject.weight entries bytes kept ∧
      (∀ front, front <+: byRecency keep objects → Fits CachedObject.weight entries bytes front →
        front.length ≤ kept.length) ∧
      (leftBeside keep (rest.map CachedObject.id) objects).Perm kept := by
  obtain ⟨kept, whole, fits, longest⟩ :=
    @beyond_spec _ CachedObject.weight entries bytes (byRecency keep objects)
  generalize rest_eq : beyond CachedObject.weight entries bytes (byRecency keep objects) = rest
    at whole
  refine ⟨kept, rest, whole, by rw [pruneCacheObjects, rest_eq], fits, longest, ?_⟩
  have ranked := byRecency_perm keep objects
  have distinct : ((kept ++ rest).map CachedObject.id).Nodup := by
    rw [← whole]
    exact (ranked.map _).nodup_iff.mpr (distinctIds.sublist (List.filter_sublist.map _))
  rw [List.map_append, List.nodup_append] at distinct
  have split : leftBeside keep (rest.map CachedObject.id) objects =
      (objects.filter fun object => keep ≠ some object.id).filter fun object =>
        object.id ∉ rest.map CachedObject.id := by
    rw [leftBeside, List.filter_filter]
    apply List.filter_congr
    intro object _
    rw [← Bool.decide_and]
  rw [split]
  apply (ranked.symm.filter _).trans
  rw [whole, List.filter_append, List.filter_eq_self.mpr, List.filter_eq_nil_iff.mpr,
    List.append_nil]
  · intro object member
    simpa using ⟨object, member, rfl⟩
  · intro object member
    apply decide_eq_true
    intro inside
    exact distinct.2.2 _ (List.mem_map_of_mem member) _ inside rfl

/-- What a call has checked before it waits. -/
def CacheCall.Allowed (limits : CacheLimits) : CacheCall → Prop
  | content request => 0 < limits.entries ∧ request.metadata.length ≤ limits.bytes
  | trim => True

theorem fitsWith_iff {limits : CacheLimits} {call : CacheCall} (allowed : call.Allowed limits)
    (objects : List CachedObject) : call.FitsWith limits objects ↔
      Fits CachedObject.weight (call.room limits).entries (call.room limits).bytes objects := by
  cases call with
  | content request =>
      obtain ⟨some, small⟩ := allowed
      simp only [CacheCall.FitsWith, CacheCall.room, Fits]
      omega
  | trim => exact Iff.rfl

theorem allowed_of_beginContent {limits : CacheLimits} {request : CacheRequest} {anchor : Bool}
    (waits : beginContent limits request anchor = .waiting) :
    CacheCall.Allowed limits (.content request) := by
  unfold beginContent at waits
  split at waits
  · cases waits
  · split at waits
    · cases waits
    · split at waits
      · cases waits
      · next some =>
          exact ⟨by omega, by omega⟩

/-- What holds in every state: the rows have different ids, every call that waits may do so, and
the rows that the call with the lock leaves fit with what it brings. -/
structure DescriptorCache.Sound (limits : CacheLimits) (state : DescriptorCache) : Prop where
  distinct : (state.objects.map CachedObject.id).Nodup
  allowed : ∀ call ∈ state.calls, call.2 = .waiting → call.1.Allowed limits
  held : ∀ place removed, state.lock = some (place, removed) →
    ∃ call, state.calls[place]? = some (call, .waiting) ∧
      call.FitsWith limits (leftBeside call.keep removed state.objects) ∧
      ∀ id ∈ removed, call.keep ≠ some id

namespace DescriptorCache

theorem sound_start {limits : CacheLimits} {objects : List CachedObject}
    (distinct : (objects.map CachedObject.id).Nodup) : (start objects).Sound limits :=
  ⟨distinct, by simp [start], by simp [start]⟩

/-- A call that comes in leaves the others as they are. -/
theorem Sound.begin {limits : CacheLimits} {state : DescriptorCache} (sound : state.Sound limits)
    {call : CacheCall} {phase : CacheCallPhase} (allowed : phase = .waiting → call.Allowed limits) :
    Sound limits { state with calls := state.calls ++ [(call, phase)] } := by
  refine ⟨sound.distinct, ?_, ?_⟩
  · intro other member waits
    rcases List.mem_append.mp member with old | new
    · exact sound.allowed other old waits
    · obtain rfl := List.mem_singleton.mp new
      exact allowed waits
  · intro place removed locked
    obtain ⟨holder, found, fits, others⟩ := sound.held place removed locked
    refine ⟨holder, ?_, fits, others⟩
    simp only
    rw [List.getElem?_append_left (List.getElem?_eq_some_iff.mp found).1, found]

/-- A call that is done is one less that waits. -/
theorem allowed_set {limits : CacheLimits} {state : DescriptorCache} (sound : state.Sound limits)
    (place : Nat) (call : CacheCall) (result : Except String Bool) :
    ∀ other ∈ state.calls.set place (call, .done result), other.2 = .waiting →
      other.1.Allowed limits := by
  intro other member waits
  rcases List.mem_or_eq_of_mem_set member with old | rfl
  · exact sound.allowed other old waits
  · cases waits

theorem Sound.prune {limits : CacheLimits} {state : DescriptorCache} (sound : state.Sound limits)
    {place : Nat} {call : CacheCall} (found : state.calls[place]? = some (call, .waiting)) :
    Sound limits { state with
      lock := some (place, pruneCacheObjects call.keep (call.room limits).entries
        (call.room limits).bytes state.objects) } := by
  refine ⟨sound.distinct, sound.allowed, ?_⟩
  rintro _ _ ⟨⟩
  have allowed := sound.allowed _ (List.mem_of_getElem? found) rfl
  obtain ⟨kept, rest, whole, pruned, fits, -, left⟩ := prune_spec sound.distinct call.keep
    (call.room limits).entries (call.room limits).bytes
  rw [pruned]
  refine ⟨call, found, ((fitsWith_iff allowed kept).mpr fits).perm left, ?_⟩
  intro id member same
  obtain ⟨object, inside, rfl⟩ := List.mem_map.mp member
  have ranked : object ∈ byRecency call.keep state.objects := by
    rw [whole]
    exact List.mem_append_right _ inside
  have other := (List.mem_filter.mp ((byRecency_perm _ _).mem_iff.mp ranked)).2
  exact of_decide_eq_true other same

/-- What a request finds in the rows. -/
theorem find_id {objects : List CachedObject} {id : FixedBytes 32} :
    (objects.find? fun object => object.id = id) = none ↔ ∀ object ∈ objects, object.id ≠ id := by
  simp [List.find?_eq_none]

/-- What a commit does to the rows: what is removed goes, and the others stay as they are but for
their last access.  A new row has an id of its own. -/
theorem apply_cases (call : CacheCall) (removed : List (FixedBytes 32))
    (objects : List CachedObject) (now : Int) :
    (∃ touch, Touches touch ∧ (call.apply now removed objects).1 =
        (objects.filter fun object => object.id ∉ removed).map touch) ∨
      ∃ request, call = .content request ∧
        (∀ object ∈ objects, object.id ∉ removed → object.id ≠ request.id) ∧
        (call.apply now removed objects).1 =
          (objects.filter fun object => object.id ∉ removed) ++ [request.object now] := by
  have same (rows : List CachedObject) : rows = rows.map id := (List.map_id rows).symm
  cases call with
  | trim => exact .inl ⟨id, fun _ => rfl, same _⟩
  | content request =>
      rw [CacheCall.apply, admitObject]
      split
      · next missing =>
          refine .inr ⟨request, rfl, fun object member stays => ?_, rfl⟩
          exact find_id.mp missing object (List.mem_filter.mpr ⟨member, decide_eq_true stays⟩)
      · split
        · exact .inl ⟨_, touches_if (fun object => object.id = request.id) now, rfl⟩
        · exact .inl ⟨id, fun _ => rfl, same _⟩

theorem distinct_apply {objects : List CachedObject}
    (distinct : (objects.map CachedObject.id).Nodup) (call : CacheCall)
    (removed : List (FixedBytes 32)) (now : Int) :
    ((call.apply now removed objects).1.map CachedObject.id).Nodup := by
  have left : ((objects.filter fun object => object.id ∉ removed).map CachedObject.id).Nodup :=
    distinct.sublist (List.filter_sublist.map _)
  rcases apply_cases call removed objects now with
    ⟨touch, touches, result⟩ | ⟨request, rfl, fresh, result⟩
  · rwa [result, touches.map_id]
  · rw [result, List.map_append, List.nodup_append]
    refine ⟨left, List.nodup_singleton _, ?_⟩
    rintro id member other new rfl
    obtain ⟨object, inside, rfl⟩ := List.mem_map.mp member
    obtain ⟨there, stays⟩ := List.mem_filter.mp inside
    exact fresh object there (of_decide_eq_true stays) (List.mem_singleton.mp new)

/-- The rows that are left, where the one that is kept is there. -/
theorem left_perm {objects : List CachedObject} {stored : CachedObject}
    {removed : List (FixedBytes 32)} (distinct : (objects.map CachedObject.id).Nodup)
    (there : stored ∈ objects) (stays : stored.id ∉ removed) :
    (objects.filter fun object => object.id ∉ removed).Perm
      (stored :: leftBeside (some stored.id) removed objects) := by
  have once : (objects.filter fun object => object.id ∉ removed).Nodup :=
    distinct.of_map.filter _
  refine (List.perm_ext_iff_of_nodup once ?_).mpr fun object => ?_
  · rw [List.nodup_cons]
    refine ⟨fun inside => ?_, distinct.of_map.filter _⟩
    exact (of_decide_eq_true (List.mem_filter.mp inside).2).2 rfl
  · rw [List.mem_cons, leftBeside, List.mem_filter, List.mem_filter, decide_eq_true_eq,
      decide_eq_true_eq]
    constructor
    · rintro ⟨member, kept⟩
      by_cases same : object.id = stored.id
      · exact .inl (CachedObject.eq_of_id distinct member there same)
      · exact .inr ⟨member, kept, fun equal => same (Option.some.inj equal).symm⟩
    · rintro (rfl | ⟨member, kept, -⟩)
      · exact ⟨there, stays⟩
      · exact ⟨member, kept⟩

/-- Without a row of its id, a call leaves the same rows beside it as without it. -/
theorem leftBeside_of_fresh {objects : List CachedObject} {removed : List (FixedBytes 32)}
    {id : FixedBytes 32} (fresh : ∀ object ∈ objects, object.id ∉ removed → object.id ≠ id) :
    leftBeside (some id) removed objects = objects.filter fun object => object.id ∉ removed := by
  apply List.filter_congr
  intro object member
  rw [decide_eq_decide]
  exact ⟨And.left, fun stays =>
    ⟨stays, fun same => fresh object member stays (Option.some.inj same).symm⟩⟩

/-- What a commit leaves: within the limits where the call succeeds, and beside another descriptor of
its id where it does not. -/
theorem apply_spec {limits : CacheLimits} {objects : List CachedObject}
    (distinct : (objects.map CachedObject.id).Nodup) {call : CacheCall}
    {removed : List (FixedBytes 32)}
    (fits : call.FitsWith limits (leftBeside call.keep removed objects)) (now : Int) :
    (call.apply now removed objects).2 = .ok true ∧
        limits.Within (call.apply now removed objects).1 ∨
      ∃ request message, call = .content request ∧
        (call.apply now removed objects).2 = .error message ∧
        (call.apply now removed objects).1.Sublist objects ∧
        (∃ stored ∈ (call.apply now removed objects).1, stored.id = request.id ∧
          stored.descriptor ≠ request) ∧
        call.FitsWith limits ((call.apply now removed objects).1.filter fun object =>
          object.id ≠ request.id) := by
  have distinctAfter := distinct_apply distinct call removed now
  cases call with
  | trim =>
      refine .inl ⟨rfl, distinctAfter, ?_⟩
      have beside : leftBeside none removed objects =
          objects.filter fun object => object.id ∉ removed :=
        List.filter_congr fun object _ => by simp
      rw [CacheCall.keep, beside] at fits
      exact fits
  | content request =>
      rw [CacheCall.apply, admitObject] at distinctAfter ⊢
      split
      · next missing =>
          simp only [missing] at distinctAfter
          have fresh (object : CachedObject) (member : object ∈ objects)
              (stays : object.id ∉ removed) : object.id ≠ request.id :=
            find_id.mp missing object (List.mem_filter.mpr ⟨member, decide_eq_true stays⟩)
          rw [CacheCall.keep, leftBeside_of_fresh fresh] at fits
          refine .inl ⟨rfl, distinctAfter, ?_, ?_⟩
          · rw [List.length_append]
            exact fits.1
          · rw [List.map_append, List.sum_append]
            exact fits.2
      · next stored found =>
          have inside := List.mem_of_find?_eq_some found
          have same : stored.id = request.id := by simpa using List.find?_some found
          obtain ⟨there, stays⟩ := List.mem_filter.mp inside
          have parts := left_perm distinct there (of_decide_eq_true stays)
          rw [same] at parts
          split
          · next equal =>
              simp only [found, if_pos equal] at distinctAfter
              have weight : stored.weight = request.metadata.length :=
                congrArg (fun descriptor : CacheRequest => descriptor.metadata.length) equal
              have touches := touches_if (fun object => object.id = request.id) now
              refine .inl ⟨rfl, distinctAfter, ?_, ?_⟩
              · rw [List.length_map, parts.length_eq]
                exact fits.1
              · rw [touches.map_weight, (parts.map _).sum_eq, List.map_cons, List.sum_cons, weight,
                  Nat.add_comm]
                exact fits.2
          · next differ =>
              refine .inr ⟨request, _, rfl, rfl, List.filter_sublist,
                ⟨stored, inside, same, differ⟩, ?_⟩
              have beside : ((objects.filter fun object => object.id ∉ removed).filter fun object =>
                  object.id ≠ request.id) = leftBeside (some request.id) removed objects := by
                rw [leftBeside, List.filter_filter]
                apply List.filter_congr
                intro object _
                rw [← Bool.decide_and, decide_eq_decide, and_comm]
                exact and_congr_right fun _ => by simp [eq_comm]
              rw [beside]
              exact fits

/-- A commit leaves rows within the limits where they were so before. -/
theorem within_apply {limits : CacheLimits} {objects : List CachedObject}
    (within : limits.Within objects) {call : CacheCall} {removed : List (FixedBytes 32)}
    (fits : call.FitsWith limits (leftBeside call.keep removed objects)) (now : Int) :
    limits.Within (call.apply now removed objects).1 := by
  rcases apply_spec within.distinct fits now with ⟨_, admitted⟩ | ⟨_, _, _, _, sublist, _⟩
  · exact admitted
  · exact within.sublist sublist

theorem Sound.commit {limits : CacheLimits} {state : DescriptorCache} (sound : state.Sound limits)
    {place : Nat} {removed : List (FixedBytes 32)} {call : CacheCall}
    (locked : state.lock = some (place, removed))
    (found : state.calls[place]? = some (call, .waiting)) (now : Int) :
    Sound limits {
      objects := (call.apply now removed state.objects).1
      calls := state.calls.set place (call, .done (call.apply now removed state.objects).2)
      lock := none } := by
  obtain ⟨holder, holds, fits, -⟩ := sound.held place removed locked
  rw [found] at holds
  cases holds
  exact ⟨distinct_apply sound.distinct call removed now, allowed_set sound _ _ _, by simp⟩

theorem Sound.abort {limits : CacheLimits} {state : DescriptorCache} (sound : state.Sound limits)
    (place : Nat) (call : CacheCall) (result : Except String Bool) :
    Sound limits { state with
      calls := state.calls.set place (call, .done result)
      lock := state.lock.filter fun held => held.1 ≠ place } := by
  refine ⟨sound.distinct, allowed_set sound _ _ _, ?_⟩
  intro holder removed locked
  obtain ⟨same, apart⟩ := Option.filter_eq_some_iff.mp locked
  obtain ⟨own, found, fits, others⟩ := sound.held holder removed same
  refine ⟨own, ?_, fits, others⟩
  have other : place ≠ holder := fun here => of_decide_eq_true apart here.symm
  rwa [List.getElem?_set_ne other]

theorem Sound.touch {limits : CacheLimits} {state : DescriptorCache} (sound : state.Sound limits)
    {touch : CachedObject → CachedObject} (touches : Touches touch) :
    Sound limits { state with objects := state.objects.map touch } := by
  refine ⟨by rw [touches.map_id]; exact sound.distinct, sound.allowed, ?_⟩
  intro place removed locked
  obtain ⟨call, found, fits, others⟩ := sound.held place removed locked
  refine ⟨call, found, ?_, others⟩
  have beside : leftBeside call.keep removed (state.objects.map touch) =
      (leftBeside call.keep removed state.objects).map touch :=
    touches.filter (fun id => decide (id ∉ removed ∧ call.keep ≠ some id)) state.objects
  rw [beside]
  exact touches.fitsWith fits

theorem Sound.cascade {limits : CacheLimits} {state : DescriptorCache} (sound : state.Sound limits)
    {objects : List CachedObject} (sublist : objects.Sublist state.objects) :
    Sound limits { state with objects } := by
  refine ⟨sound.distinct.sublist (sublist.map _), sound.allowed, ?_⟩
  intro place removed locked
  obtain ⟨call, found, fits, others⟩ := sound.held place removed locked
  exact ⟨call, found, fits.sublist (sublist.filter _), others⟩

theorem Sound.step {limits : CacheLimits} {before after : DescriptorCache} {action : CacheAction}
    (sound : before.Sound limits) (taken : before.step limits action = some after) :
    after.Sound limits := by
  cases action with
  | content request anchor =>
      cases taken
      exact sound.begin allowed_of_beginContent
  | trim =>
      cases taken
      exact sound.begin fun _ => trivial
  | prune place =>
      simp only [DescriptorCache.step] at taken
      split at taken
      · next call found _ =>
          cases taken
          exact sound.prune found
      · cases taken
  | commit place now =>
      simp only [DescriptorCache.step] at taken
      split at taken
      · next call holder removed found locked =>
          split at taken
          · next same =>
              subst same
              cases taken
              exact sound.commit locked found now
          · cases taken
      · cases taken
  | abort place message =>
      simp only [DescriptorCache.step] at taken
      split at taken
      · next call _ =>
          cases taken
          exact sound.abort place call _
      · cases taken
  | touch ids now =>
      cases taken
      exact sound.touch (touches_if _ now)
  | cascade ids =>
      cases taken
      exact sound.cascade List.filter_sublist

/-- What a step does to the rows: it touches or deletes some, or a call commits. -/
theorem objects_step {limits : CacheLimits} {before after : DescriptorCache} {action : CacheAction}
    (taken : before.step limits action = some after) :
    (∃ touch, Touches touch ∧ (after.objects = before.objects.map touch)) ∨
      after.objects.Sublist before.objects ∨
      ∃ place now call removed, action = .commit place now ∧
        before.lock = some (place, removed) ∧ before.calls[place]? = some (call, .waiting) ∧
        after.objects = (call.apply now removed before.objects).1 := by
  cases action with
  | content request anchor =>
      cases taken
      exact .inr (.inl (List.Sublist.refl _))
  | trim =>
      cases taken
      exact .inr (.inl (List.Sublist.refl _))
  | prune place =>
      simp only [DescriptorCache.step] at taken
      split at taken
      · cases taken
        exact .inr (.inl (List.Sublist.refl _))
      · cases taken
  | commit place now =>
      simp only [DescriptorCache.step] at taken
      split at taken
      · next call holder removed found locked =>
          split at taken
          · next same =>
              subst same
              cases taken
              exact .inr (.inr ⟨_, _, call, removed, rfl, locked, found, rfl⟩)
          · cases taken
      · cases taken
  | abort place message =>
      simp only [DescriptorCache.step] at taken
      split at taken
      · cases taken
        exact .inr (.inl (List.Sublist.refl _))
      · cases taken
  | touch ids now =>
      cases taken
      exact .inl ⟨_, touches_if _ now, rfl⟩
  | cascade ids =>
      cases taken
      exact .inr (.inl List.filter_sublist)

/-- Rows that are within the limits stay so. -/
theorem within_step {limits : CacheLimits} {before after : DescriptorCache} {action : CacheAction}
    (sound : before.Sound limits) (within : limits.Within before.objects)
    (taken : before.step limits action = some after) : limits.Within after.objects := by
  rcases objects_step taken with ⟨touch, touches, rows⟩ | sublist | committed
  · rw [rows]
    exact touches.within within
  · exact within.sublist sublist
  · obtain ⟨place, now, call, removed, -, locked, found, rows⟩ := committed
    obtain ⟨holder, holds, fits, -⟩ := sound.held place removed locked
    obtain ⟨rfl, -⟩ := Prod.mk.inj (Option.some.inj (found.symm.trans holds))
    rw [rows]
    exact within_apply within fits now

/-- What a commit leaves, also of rows that exceed the limits. -/
theorem commit_spec {limits : CacheLimits} {before after : DescriptorCache} {place : Nat} {now : Int}
    (sound : before.Sound limits) (taken : before.step limits (.commit place now) = some after) :
    ∃ call result, after.calls[place]? = some (call, .done result) ∧
      (result = .ok true ∧ limits.Within after.objects ∨
        ∃ request message, call = .content request ∧ result = .error message ∧
          (∃ stored ∈ after.objects, stored.id = request.id ∧ stored.descriptor ≠ request) ∧
          call.FitsWith limits (after.objects.filter fun object => object.id ≠ request.id)) := by
  simp only [DescriptorCache.step] at taken
  split at taken
  · next call holder removed found locked =>
      split at taken
      · next same =>
          subst same
          cases taken
          obtain ⟨other, holds, fits, -⟩ := sound.held _ removed locked
          obtain ⟨rfl, -⟩ := Prod.mk.inj (Option.some.inj (found.symm.trans holds))
          refine ⟨call, _, List.getElem?_set_self (List.getElem?_eq_some_iff.mp found).1, ?_⟩
          rcases apply_spec sound.distinct fits now with
            admitted | ⟨request, message, own, refused, -, stored, beside⟩
          · exact .inl admitted
          · exact .inr ⟨request, message, own, refused, stored, beside⟩
      · cases taken
  · cases taken

/-- A row is never replaced by another descriptor of its id. -/
theorem descriptor_step {limits : CacheLimits} {before after : DescriptorCache}
    {action : CacheAction} (sound : before.Sound limits)
    (taken : before.step limits action = some after) {old new : CachedObject}
    (member : old ∈ before.objects) (newMember : new ∈ after.objects) (same : new.id = old.id) :
    new.descriptor = old.descriptor := by
  have kept {touch : CachedObject → CachedObject} (touches : Touches touch)
      {objects : List CachedObject} (subset : ∀ object ∈ objects, object ∈ before.objects)
      (inside : new ∈ objects.map touch) : new.descriptor = old.descriptor := by
    obtain ⟨object, there, rfl⟩ := List.mem_map.mp inside
    rw [touches.id] at same
    rw [touches, CachedObject.eq_of_id sound.distinct (subset object there) member same]
  rcases objects_step taken with ⟨touch, touches, rows⟩ | sublist | committed
  · exact kept touches (fun _ => id) (rows ▸ newMember)
  · rw [CachedObject.eq_of_id sound.distinct (sublist.subset newMember) member same]
  · obtain ⟨place, now, call, removed, -, locked, found, rows⟩ := committed
    obtain ⟨holder, holds, -, others⟩ := sound.held place removed locked
    rw [found] at holds
    cases holds
    rw [rows] at newMember
    rcases apply_cases call removed before.objects now with
      ⟨touch, touches, result⟩ | ⟨request, rfl, fresh, result⟩
    · exact kept touches (fun _ inside => (List.mem_filter.mp inside).1) (result ▸ newMember)
    · rw [result] at newMember
      rcases List.mem_append.mp newMember with stays | put
      · rw [CachedObject.eq_of_id sound.distinct (List.mem_filter.mp stays).1 member same]
      · obtain rfl := List.mem_singleton.mp put
        by_cases gone : old.id ∈ removed
        · exact absurd (congrArg some same) (others old.id gone)
        · exact absurd same.symm (fresh old member gone)

/-- A commit removes the rows that its call has found to lie beyond the limits, and no others. -/
theorem removed_commit {limits : CacheLimits} {before after : DescriptorCache} {place : Nat}
    {now : Int} {removed : List (FixedBytes 32)} (sound : before.Sound limits)
    (locked : before.lock = some (place, removed))
    (taken : before.step limits (.commit place now) = some after) {object : CachedObject}
    (member : object ∈ before.objects) :
    object.id ∈ after.objects.map CachedObject.id ↔ object.id ∉ removed := by
  obtain ⟨call, found, -, others⟩ := sound.held place removed locked
  simp only [DescriptorCache.step, found, locked, if_true] at taken
  cases taken
  have stays : object.id ∈ ((before.objects.filter fun object => object.id ∉ removed).map
      CachedObject.id) ↔ object.id ∉ removed := by
    constructor
    · intro inside
      obtain ⟨other, there, same⟩ := List.mem_map.mp inside
      rw [← same]
      exact of_decide_eq_true (List.mem_filter.mp there).2
    · intro kept
      exact List.mem_map_of_mem (List.mem_filter.mpr ⟨member, decide_eq_true kept⟩)
  rcases apply_cases call removed before.objects now with
      ⟨touch, touches, result⟩ | ⟨request, rfl, fresh, result⟩
  · rw [result, touches.map_id, stays]
  · rw [result, List.map_append, List.mem_append, stays]
    constructor
    · rintro (kept | put)
      · exact kept
      · intro gone
        exact others object.id gone (congrArg some (List.mem_singleton.mp put).symm)
    · exact .inl

end DescriptorCache

/-- Whatever the calls do, and in whatever order, descriptors that are within the limits stay so.
From any rows, a trim or a call that is admitted commits rows within the limits; a call that finds
another descriptor of its id keeps that one beside rows that fit with what it brought.  A call with
the lock removes what lies behind the longest prefix by recency that fits with what it brings.  A call
without an anchor changes nothing, and no descriptor is replaced by another one of its id. -/
theorem descriptor_cache_within {limits : CacheLimits} {objects : List CachedObject}
    (distinct : (objects.map CachedObject.id).Nodup) {actions : List CacheAction}
    {state : DescriptorCache}
    (run : Run (fun before action after => before.step limits action = some after)
      (DescriptorCache.start objects) actions state) :
    (limits.Within objects → limits.Within state.objects) ∧
    ∀ action after, state.step limits action = some after →
      (limits.Within state.objects → limits.Within after.objects) ∧
      (∀ place now, action = .commit place now → ∃ call result,
        after.calls[place]? = some (call, .done result) ∧
          (result = .ok true ∧ limits.Within after.objects ∨
            ∃ request message, call = .content request ∧ result = .error message ∧
              (∃ stored ∈ after.objects, stored.id = request.id ∧ stored.descriptor ≠ request) ∧
              call.FitsWith limits
                (after.objects.filter fun object => object.id ≠ request.id))) ∧
      (∀ place call phase, action = .prune place → state.calls[place]? = some (call, phase) →
        ∃ kept rest, byRecency call.keep state.objects = kept ++ rest ∧
          after.lock = some (place, rest.map CachedObject.id) ∧ call.FitsWith limits kept ∧
          ∀ front, front <+: byRecency call.keep state.objects → call.FitsWith limits front →
            front.length ≤ kept.length) ∧
      (∀ place now removed, action = .commit place now → state.lock = some (place, removed) →
        ∀ object ∈ state.objects,
          (object.id ∈ after.objects.map CachedObject.id ↔ object.id ∉ removed)) ∧
      (∀ request, action = .content request false →
        after.objects = state.objects ∧ after.lock = state.lock ∧
          ∃ result, after.calls = state.calls ++ [(.content request, .done result)]) ∧
      ∀ old ∈ state.objects, ∀ new ∈ after.objects, new.id = old.id →
        new.descriptor = old.descriptor := by
  have sound : state.Sound limits :=
    run.invariant (fun _ _ _ sound taken => sound.step taken) (DescriptorCache.sound_start distinct)
  refine ⟨fun within => ?_, fun action after taken =>
    ⟨fun within => DescriptorCache.within_step sound within taken, ?_, ?_, ?_, ?_, ?_⟩⟩
  · have kept : state.Sound limits ∧ limits.Within state.objects := by
      apply run.invariant
      · intro before action after holds taken
        exact ⟨holds.1.step taken, DescriptorCache.within_step holds.1 holds.2 taken⟩
      · exact ⟨DescriptorCache.sound_start distinct, within⟩
    exact kept.2
  · rintro place now rfl
    exact DescriptorCache.commit_spec sound taken
  · rintro place call phase rfl found
    simp only [DescriptorCache.step, found] at taken
    split at taken
    · next same _ =>
        cases same
        cases taken
        have allowed := sound.allowed _ (List.mem_of_getElem? found) rfl
        obtain ⟨kept, rest, whole, pruned, fits, longest, -⟩ := prune_spec sound.distinct call.keep
          (call.room limits).entries (call.room limits).bytes
        refine ⟨kept, rest, whole, by rw [pruned], (fitsWith_iff allowed kept).mpr fits, ?_⟩
        intro front inside own
        exact longest front inside ((fitsWith_iff allowed front).mp own)
    · cases taken
  · rintro place now removed rfl locked object member
    exact DescriptorCache.removed_commit sound locked taken member
  · rintro request rfl
    cases taken
    refine ⟨rfl, rfl, ?_⟩
    cases phase : beginContent limits request false with
    | done result => exact ⟨result, rfl⟩
    | waiting =>
        simp only [beginContent, Bool.false_eq_true, if_false] at phase
        split_ifs at phase
  · intro old member new newMember same
    exact DescriptorCache.descriptor_step sound taken member newMember same

/-- A descriptor of so many bytes. -/
def exampleObject (name : UInt8) (size : Nat) (lastAccess : Int) : CachedObject where
  id := ⟨List.replicate 32 name, List.length_replicate⟩
  blockHeight := 7
  blockHash := List.replicate 48 1
  inlineHash := none
  metadata := List.replicate size 32
  lastAccess := lastAccess

/-- A request for another descriptor of that name. -/
def exampleRequest (name : UInt8) (size : Nat) : CacheRequest :=
  (exampleObject name size 0).descriptor

def exampleLimits : CacheLimits := ⟨2, 10⟩

theorem exampleObjects_within :
    exampleLimits.Within [exampleObject 1 1 50, exampleObject 2 9 40] :=
  ⟨by decide, by decide, by decide⟩

/-- The descriptors stay within the limits, and one too many goes with the next trim. -/
theorem descriptor_cache_within_sample :
    (∃ state, Run (fun before action after => before.step exampleLimits action = some after)
        (DescriptorCache.start [exampleObject 1 1 50, exampleObject 2 9 40])
        [.content (exampleRequest 3 4) true, .content (exampleRequest 4 2) false, .prune 0,
          .touch [(exampleObject 2 9 40).id] 500, .commit 0 501, .trim, .prune 2, .commit 2 502]
        state ∧
      state.objects.map CachedObject.id =
        [(exampleObject 1 1 50).id, (exampleObject 3 4 50).id] ∧
      exampleLimits.Within state.objects) ∧
    ∃ state after, Run (fun before action after => before.step exampleLimits action = some after)
        (DescriptorCache.start
          [exampleObject 1 1 50, exampleObject 2 9 40, exampleObject 3 5 30]) [.trim, .prune 0]
        state ∧
      2 < state.objects.length ∧ state.step exampleLimits (.commit 0 501) = some after ∧
      exampleLimits.Within after.objects := by
  constructor
  · obtain ⟨state, run, ids⟩ := @Run.exists_of_foldlM _ _ (DescriptorCache.step exampleLimits)
      (DescriptorCache.start [exampleObject 1 1 50, exampleObject 2 9 40])
      [.content (exampleRequest 3 4) true, .content (exampleRequest 4 2) false, .prune 0,
        .touch [(exampleObject 2 9 40).id] 500, .commit 0 501, .trim, .prune 2, .commit 2 502]
      (fun state => state.objects.map CachedObject.id =
        [(exampleObject 1 1 50).id, (exampleObject 3 4 50).id]) _ (by decide)
    exact ⟨state, run, ids,
      (descriptor_cache_within exampleObjects_within.distinct run).1 exampleObjects_within⟩
  · let rows := [exampleObject 1 1 50, exampleObject 2 9 40, exampleObject 3 5 30]
    let state : DescriptorCache := ⟨rows, [(.trim, .waiting)], some (0, [(exampleObject 3 5 30).id])⟩
    let after : DescriptorCache :=
      ⟨[exampleObject 1 1 50, exampleObject 2 9 40], [(.trim, .done (.ok true))], none⟩
    have run : Run (fun before action after => before.step exampleLimits action = some after)
        (DescriptorCache.start rows) [.trim, .prune 0] state := Run.of_foldlM rfl
    have taken : state.step exampleLimits (.commit 0 501) = some after := rfl
    have distinct : (rows.map CachedObject.id).Nodup := by decide
    obtain ⟨call, result, found, ⟨_, within⟩ | ⟨request, _, rfl, _⟩⟩ :=
      ((descriptor_cache_within distinct run).2 _ after taken).2.1 0 501 rfl
    · exact ⟨state, after, run, by decide, taken, within⟩
    · cases found

/-- A call that brings another descriptor of an id prunes for the one it brings: it removes a row
that fits with the one that is kept. -/
theorem conflicting_call_prunes :
    ¬∀ (limits : CacheLimits) (objects : List CachedObject) (actions : List CacheAction)
      (state : DescriptorCache) (place : Nat) (removed : List (FixedBytes 32))
      (request : CacheRequest), limits.Within objects →
      Run (fun before action after => before.step limits action = some after)
        (DescriptorCache.start objects) actions state →
      state.lock = some (place, removed) → state.calls[place]? = some (.content request, .waiting) →
      ∀ kept ∈ state.objects, kept.id = request.id →
        ∀ front, front <+: byRecency (some request.id) state.objects →
          CacheCall.FitsWith limits front (.content kept.descriptor) →
          ∀ object ∈ front, object.id ∉ removed := by
  intro all
  let rows := [exampleObject 1 1 50, exampleObject 2 9 40]
  let state : DescriptorCache :=
    ⟨rows, [(.content (exampleRequest 1 5), .waiting)], some (0, [(exampleObject 2 9 40).id])⟩
  have run : Run (fun before action after => before.step exampleLimits action = some after)
      (DescriptorCache.start rows) [.content (exampleRequest 1 5) true, .prune 0] state :=
    Run.of_foldlM rfl
  exact all exampleLimits rows _ state 0 _ (exampleRequest 1 5) exampleObjects_within run rfl rfl
    (exampleObject 1 1 50) (by simp [state, rows]) rfl [exampleObject 2 9 40]
    ⟨[], by decide⟩ ⟨by decide, by decide⟩ (exampleObject 2 9 40) (by simp) (by simp)

end ArIoGateway
