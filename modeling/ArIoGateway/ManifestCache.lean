import ArIoGateway.Codec
import ArIoGateway.MemoryCaches
import Mathlib.Data.List.DropRight

/-!
# Manifests and the cache of their paths

A manifest maps paths to the IDs of the data behind them.  What its paths resolve to is kept for
each manifest and digest, up to a number of paths for all manifests together; the manifest that was
used longest ago is given up first.
-/

namespace ArIoGateway

open Octets

def maxManifestBytes : Nat := 10 * 1024 * 1024
def maxManifestPathBytes : Nat := 4096
def maxCachedManifestPaths : Nat := 1024

/-- The fields of a manifest. -/
structure Manifest where
  manifest : String
  version : String
  index : JsonValue
  fallback : JsonValue
  paths : List (String × JsonValue)

structure ManifestResolution where
  id : String
  fallback : Bool
deriving DecidableEq

/-- The path without the slashes at its end. -/
def trimSlashes (path : String) : String :=
  String.ofList (path.toList.rdropWhile (· = '/'))

def manifestField (value : JsonValue) (field label : String) : Checked (Option String) :=
  match value.get field with
  | none => pure none
  | some value => some <$> Checked.context value.asStr (label ++ " must be a string")

def requiredManifestId (value : JsonValue) (label : String) : Checked String := do
  let id ← manifestField value "id" label
  Checked.context id (label ++ " is missing an ID")

/-- The target of the empty path: the ID of the index, or else the target of its path. -/
def indexTarget (manifest : Manifest) : Checked (Option String) := do
  let id ← (if manifest.version = "0.2.0" then manifestField manifest.index "id" "manifest index ID"
    else pure none)
  match id with
  | some id => pure (some id)
  | none => do
      let path ← manifestField manifest.index "path" "manifest index path"
      match path.bind fun path => manifest.paths.find? fun entry => entry.1 = path with
      | none => pure none
      | some (_, target) => some <$> requiredManifestId target "manifest index target"

/-- The target of a path without slashes at its end. -/
def pathTarget (manifest : Manifest) (path : String) : Checked (Option String) :=
  if path = "" then indexTarget manifest
  else
    match manifest.paths.find? fun entry => trimSlashes entry.1 = path with
    | none => pure none
    | some (_, target) => some <$> requiredManifestId target "manifest path target"

/-- The target of a path, or else the fallback, and whether it is this. -/
def manifestTarget (manifest : Manifest) (path : String) : Checked (Option (String × Bool)) := do
  let target ← pathTarget manifest path
  match target with
  | some id => pure (some (id, false))
  | none =>
      if manifest.version = "0.2.0" ∧ manifest.fallback.isNull = false then do
        let id ← requiredManifestId manifest.fallback "manifest fallback"
        pure (some (id, true))
      else pure none

/-- What a path of a manifest resolves to.  The reader of JSON finds the fields of a manifest. -/
def resolveManifest (parse : Bytes → Option Manifest) (bytes : Bytes) (path : String) :
    Checked (Option ManifestResolution) := do
  Checked.ensure (bytes.length ≤ maxManifestBytes) "manifest exceeds size limit"
  Checked.ensure (path.utf8ByteSize ≤ maxManifestPathBytes) "manifest path exceeds size limit"
  let manifest ← Checked.context (parse bytes) "invalid manifest JSON"
  Checked.ensure (manifest.manifest = "arweave/paths") "invalid manifest type"
  Checked.ensure (manifest.version = "0.1.0" ∨ manifest.version = "0.2.0")
    "unsupported manifest version"
  let resolved ← manifestTarget manifest (trimSlashes path)
  match resolved with
  | none => pure none
  | some (id, fallback) => do
      let _ ← decodeFixed 32 id "manifest target ID"
      pure (some ⟨id, fallback⟩)

/-- The paths of a manifest that are kept, with what they resolve to. -/
structure CachedManifest where
  digest : String
  paths : List (String × Option ManifestResolution)

/-- The number of paths that a manifest keeps. -/
def CachedManifest.count (manifest : CachedManifest) : Nat := manifest.paths.length

/-- Put a value in, in the place of any other of its name. -/
def setPath {V : Type} (path : String) (value : V) : List (String × V) → List (String × V)
  | [] => [(path, value)]
  | entry :: rest =>
      if entry.1 = path then (path, value) :: rest else entry :: setPath path value rest

/-- The cache of the paths of manifests.  The counter of the map counts paths. -/
structure ManifestCache extends SizedCache String CachedManifest where
  clock : Nat

/-- The bytes of a manifest, under the ID and the digest that have been verified. -/
structure ManifestBytes where
  id : String
  etag : String
  bytes : Bytes
deriving DecidableEq

namespace ManifestCache

def empty : ManifestCache where
  entries := []
  bytes := 0
  clock := 0

/-- `ManifestCache::get`. -/
def get (cache : ManifestCache) (verified : ManifestBytes) (path : String) :
    ManifestCache × Option (Option ManifestResolution) :=
  match cache.find verified.id with
  | none => (cache, none)
  | some manifest =>
      if manifest.value.digest ≠ verified.etag then (cache, none)
      else
        match manifest.value.paths.find? fun entry => entry.1 = path with
        | none => (cache, none)
        | some entry =>
            ({ toSizedCache := cache.touch verified.id (cache.clock + 1)
               clock := cache.clock + 1 }, some entry.2)

/-- The loop that gives manifests up while there are too many paths, for a number of rounds at
most. -/
def fitWithin : (rounds : Nat) → SizedCache String CachedManifest →
    Option (SizedCache String CachedManifest)
  | 0, cache => if maxCachedManifestPaths < cache.bytes then none else some cache
  | rounds + 1, cache =>
      if maxCachedManifestPaths < cache.bytes then do
        fitWithin rounds (← cache.evict CachedManifest.count)
      else some cache

/-- Give a manifest up that is kept with another digest. -/
def replaced (cache : ManifestCache) (verified : ManifestBytes) :
    Option (SizedCache String CachedManifest) :=
  if (cache.find verified.id).any fun entry => entry.value.digest ≠ verified.etag then
    cache.remove CachedManifest.count verified.id
  else some cache.toSizedCache

/-- The manifest that a path is added to, a new one unless it is kept. -/
def opened (cache : SizedCache String CachedManifest) (verified : ManifestBytes) : CachedManifest :=
  match cache.find verified.id with
  | some entry => entry.value
  | none => ⟨verified.etag, []⟩

/-- Add a path to the manifest of an ID, and count it if it is a new one. -/
def filled (cache : SizedCache String CachedManifest) (verified : ManifestBytes) (path : String)
    (target : Option ManifestResolution) (now : Nat) : SizedCache String CachedManifest :=
  let manifest := opened cache verified
  { entries := cache.entries.filter (fun entry => entry.key ≠ verified.id) ++
      [⟨verified.id, { manifest with paths := setPath path target manifest.paths }, now⟩]
    bytes := if manifest.paths.any fun entry => entry.1 = path then cache.bytes
      else cache.bytes + 1 }

/-- `ManifestCache::insert`.  Each round of the loop takes a manifest out. -/
def insert (cache : ManifestCache) (verified : ManifestBytes) (path : String)
    (target : Option ManifestResolution) : Option ManifestCache := do
  let kept ← cache.replaced verified
  let full := filled kept verified path target (cache.clock + 1)
  let fitted ← fitWithin full.entries.length full
  pure { toSizedCache := fitted, clock := cache.clock + 1 }

end ManifestCache

/-- A call of `resolve_manifest_content`. -/
structure ManifestCall where
  verified : ManifestBytes
  path : String
deriving DecidableEq

/-- The cache, the calls that have missed it, and the calls that have returned. -/
structure ManifestWorld where
  cache : ManifestCache
  missed : List ManifestCall
  answers : List (ManifestCall × Checked (Option ManifestResolution))

def ManifestWorld.start : ManifestWorld := ⟨.empty, [], []⟩

inductive ManifestEvent where
  | call (call : ManifestCall)
  | resolve (call : ManifestCall)
  | drop (call : ManifestCall)
  | rehash (entries : List (CacheEntry String CachedManifest))

/-- The checks before the cache is asked. -/
def checkManifestCall (call : ManifestCall) : Checked Unit := do
  Checked.ensure (call.verified.bytes.length ≤ maxManifestBytes) "manifest exceeds size limit"
  Checked.ensure (call.path.utf8ByteSize ≤ maxManifestPathBytes) "manifest path exceeds size limit"

/-- One step of the calls of `resolve_manifest_content`.  The lock of the cache is held for one look
and for one insertion; other calls take their steps in between.  A call whose bytes cannot be read
ends without an answer of the resolver. -/
inductive ManifestStep (parse : Bytes → Option Manifest) :
    Option ManifestWorld → ManifestEvent → Option ManifestWorld → Prop
  | refused {world : ManifestWorld} {call : ManifestCall} {message : String} :
      checkManifestCall call = .error message →
      ManifestStep parse (some world) (.call call)
        (some { world with answers := world.answers ++ [(call, .error message)] })
  | hit {world : ManifestWorld} {call : ManifestCall} {cache : ManifestCache}
      {target : Option ManifestResolution} :
      checkManifestCall call = .ok () →
      world.cache.get call.verified (trimSlashes call.path) = (cache, some target) →
      ManifestStep parse (some world) (.call call)
        (some { world with cache, answers := world.answers ++ [(call, .ok target)] })
  | miss {world : ManifestWorld} {call : ManifestCall} {cache : ManifestCache} :
      checkManifestCall call = .ok () →
      world.cache.get call.verified (trimSlashes call.path) = (cache, none) →
      ManifestStep parse (some world) (.call call)
        (some { world with cache, missed := world.missed ++ [call] })
  | failed {world : ManifestWorld} {call : ManifestCall} {message : String} :
      call ∈ world.missed →
      resolveManifest parse call.verified.bytes (trimSlashes call.path) = .error message →
      ManifestStep parse (some world) (.resolve call)
        (some { world with
          missed := world.missed.erase call
          answers := world.answers ++ [(call, .error message)] })
  | resolved {world : ManifestWorld} {call : ManifestCall} {target : Option ManifestResolution} :
      call ∈ world.missed →
      resolveManifest parse call.verified.bytes (trimSlashes call.path) = .ok target →
      ManifestStep parse (some world) (.resolve call)
        ((world.cache.insert call.verified (trimSlashes call.path) target).map fun cache =>
          { cache
            missed := world.missed.erase call
            answers := world.answers ++ [(call, .ok target)] })
  | drop {world : ManifestWorld} {call : ManifestCall} :
      call ∈ world.missed →
      ManifestStep parse (some world) (.drop call)
        (some { world with missed := world.missed.erase call })
  | rehash {world : ManifestWorld} {entries : List (CacheEntry String CachedManifest)} :
      entries.Perm world.cache.entries →
      ManifestStep parse (some world) (.rehash entries)
        (some { world with cache := { world.cache with entries } })

/-- A path is its trimmed part with slashes behind it. -/
theorem exists_slashes (path : String) : ∃ slashes, path = trimSlashes path ++ slashes := by
  obtain ⟨slashes, whole⟩ := List.rdropWhile_prefix (fun char => char = '/') path.toList
  exact ⟨String.ofList slashes, by
    rw [trimSlashes, ← String.ofList_append, whole, String.ofList_toList]⟩

@[simp] theorem trimSlashes_trimSlashes (path : String) :
    trimSlashes (trimSlashes path) = trimSlashes path := by
  simp only [trimSlashes, String.toList_ofList, List.rdropWhile_idempotent]

theorem utf8ByteSize_trimSlashes_le (path : String) :
    (trimSlashes path).utf8ByteSize ≤ path.utf8ByteSize := by
  obtain ⟨slashes, whole⟩ := exists_slashes path
  calc (trimSlashes path).utf8ByteSize ≤ (trimSlashes path ++ slashes).utf8ByteSize := by
        rw [String.utf8ByteSize_append]
        exact Nat.le_add_right _ _
    _ = path.utf8ByteSize := by rw [← whole]

/-- The resolver finds the same for a short path and its trimmed part. -/
theorem resolveManifest_trimSlashes (parse : Bytes → Option Manifest) (bytes : Bytes)
    {path : String} (short : path.utf8ByteSize ≤ maxManifestPathBytes) :
    resolveManifest parse bytes (trimSlashes path) = resolveManifest parse bytes path := by
  have trimmed := (utf8ByteSize_trimSlashes_le path).trans short
  simp only [resolveManifest, trimSlashes_trimSlashes, Checked.ensure_of short,
    Checked.ensure_of trimmed]

theorem checkManifestCall_eq_ok {call : ManifestCall} :
    checkManifestCall call = .ok () ↔ call.verified.bytes.length ≤ maxManifestBytes ∧
      call.path.utf8ByteSize ≤ maxManifestPathBytes := by
  rw [checkManifestCall, Checked.bind_eq_ok]
  constructor
  · rintro ⟨⟨⟩, large, long⟩
    exact ⟨Checked.ensure_eq_ok.mp large, Checked.ensure_eq_ok.mp long⟩
  · rintro ⟨large, long⟩
    exact ⟨(), Checked.ensure_of large, Checked.ensure_of long⟩

/-- A call that is refused is refused as the resolver would. -/
theorem resolveManifest_of_refused (parse : Bytes → Option Manifest) {call : ManifestCall}
    {message : String} (refused : checkManifestCall call = .error message) :
    resolveManifest parse call.verified.bytes call.path = .error message := by
  rw [checkManifestCall] at refused
  rw [resolveManifest]
  by_cases large : call.verified.bytes.length ≤ maxManifestBytes
  · rw [Checked.ensure_of large, Checked.ok_bind] at refused ⊢
    rw [refused, Checked.error_bind]
  · have failed : Checked.ensure (call.verified.bytes.length ≤ maxManifestBytes)
        "manifest exceeds size limit" = .error "manifest exceeds size limit" := if_neg large
    rw [failed, Checked.error_bind] at refused ⊢
    exact congrArg Except.error (Except.error.inj refused)

section Paths

variable {V : Type} {path : String} {value : V} {entries : List (String × V)}

theorem map_fst_setPath :
    (setPath path value entries).map Prod.fst =
      if path ∈ entries.map Prod.fst then entries.map Prod.fst
      else entries.map Prod.fst ++ [path] := by
  induction entries with
  | nil => rfl
  | cons entry rest induction =>
      rw [setPath]
      by_cases same : entry.1 = path
      · rw [if_pos same, if_pos (by simp [same]), List.map_cons, List.map_cons, same]
      · have other : ¬path = entry.1 := fun equal => same equal.symm
        simp only [if_neg same, List.map_cons, induction, List.mem_cons, other, false_or]
        split <;> rfl

theorem nodup_setPath (distinct : (entries.map Prod.fst).Nodup) :
    ((setPath path value entries).map Prod.fst).Nodup := by
  rw [map_fst_setPath]
  split
  · exact distinct
  · next fresh =>
      refine List.nodup_append.mpr ⟨distinct, List.nodup_singleton _,
        fun one member other last => ?_⟩
      obtain rfl := List.mem_singleton.mp last
      exact fun same => fresh (same ▸ member)

/-- A path that is set is counted once. -/
theorem length_setPath :
    (setPath path value entries).length =
      if entries.any fun entry => entry.1 = path then entries.length else entries.length + 1 := by
  have known : (entries.any fun entry => entry.1 = path) = true ↔ path ∈ entries.map Prod.fst := by
    simp [List.any_eq_true]
  have lengths := congrArg List.length (@map_fst_setPath V path value entries)
  rw [List.length_map] at lengths
  rw [lengths, apply_ite List.length]
  simp only [List.length_map, List.length_append, List.length_singleton, known]

theorem mem_setPath {entry : String × V} (member : entry ∈ setPath path value entries) :
    entry = (path, value) ∨ entry ∈ entries := by
  induction entries with
  | nil => exact .inl (List.mem_singleton.mp member)
  | cons first rest induction =>
      rw [setPath] at member
      split at member
      · exact (List.mem_cons.mp member).imp_right (List.mem_cons_of_mem _)
      · rcases List.mem_cons.mp member with same | inside
        · exact .inr (same ▸ List.mem_cons_self)
        · exact (induction inside).imp_right (List.mem_cons_of_mem _)

end Paths

namespace ManifestCache

/-- The loop ends within as many rounds as there are manifests, with few enough paths. -/
theorem exact_fitWithin {rounds : Nat} {cache : SizedCache String CachedManifest}
    (exact : cache.Exact CachedManifest.count) (enough : cache.entries.length ≤ rounds) :
    ∃ rest, fitWithin rounds cache = some rest ∧ rest.Exact CachedManifest.count ∧
      rest.bytes ≤ maxCachedManifestPaths ∧ rest.entries ⊆ cache.entries := by
  induction rounds generalizing cache with
  | zero =>
      have none : cache.entries = [] := List.length_eq_zero_iff.mp (Nat.le_zero.mp enough)
      have free : cache.bytes = 0 := by simpa [none, SizedCache.weight] using exact.bytes
      refine ⟨cache, ?_, exact, by omega, List.Subset.refl _⟩
      rw [fitWithin, if_neg (by omega)]
  | succ rounds induction =>
      rw [fitWithin]
      by_cases full : maxCachedManifestPaths < cache.bytes
      · have held : cache.entries ≠ [] := by
          intro none
          have free : cache.bytes = 0 := by simpa [none, SizedCache.weight] using exact.bytes
          omega
        obtain ⟨victim, member, -, rest, evicted, restExact, left⟩ := exact.evict held
        have fewer : rest.entries.length ≤ rounds := by
          have shorter := left ▸ List.length_filter_lt_length_iff_exists.mpr
            ⟨victim, member, by simp⟩
          omega
        obtain ⟨final, fits, finalExact, few, inside⟩ := induction restExact fewer
        refine ⟨final, ?_, finalExact, few, fun entry there => ?_⟩
        · rw [if_pos full, evicted]
          exact fits
        · exact List.mem_of_mem_filter (left ▸ inside there)
      · exact ⟨cache, if_neg full, exact, by omega, List.Subset.refl _⟩

/-- Giving up a manifest of another digest leaves the digest that has been verified, if any. -/
theorem exact_replaced {cache : ManifestCache} (exact : cache.Exact CachedManifest.count)
    (verified : ManifestBytes) :
    ∃ kept, cache.replaced verified = some kept ∧ kept.Exact CachedManifest.count ∧
      kept.entries ⊆ cache.entries ∧
      ∀ entry, kept.find verified.id = some entry → entry.value.digest = verified.etag := by
  rw [replaced]
  by_cases changed : (cache.find verified.id).any fun entry => entry.value.digest ≠ verified.etag
  · obtain ⟨rest, removed, restExact, left⟩ := exact.remove verified.id
    refine ⟨rest, by rw [if_pos changed, removed], restExact, fun entry there => ?_, ?_⟩
    · exact List.mem_of_mem_filter (left ▸ there)
    · intro entry found
      obtain ⟨member, same⟩ := SizedCache.mem_of_find found
      rw [left] at member
      exact absurd same (by simpa using List.of_mem_filter member)
  · refine ⟨_, if_neg changed, exact, List.Subset.refl _, fun entry found => ?_⟩
    simpa [found] using changed

/-- A path that is added is counted exactly when it is a new one. -/
theorem exact_filled {cache : SizedCache String CachedManifest}
    (exact : cache.Exact CachedManifest.count) (verified : ManifestBytes) (path : String)
    (target : Option ManifestResolution) (now : Nat) :
    (filled cache verified path target now).Exact CachedManifest.count := by
  have counted : cache.bytes = (opened cache verified).paths.length + SizedCache.weight
      CachedManifest.count (cache.entries.filter fun entry => entry.key ≠ verified.id) := by
    rw [exact.bytes, opened]
    cases found : cache.find verified.id with
    | none => rw [SizedCache.filter_of_find_none found, List.length_nil, Nat.zero_add]
    | some entry =>
        obtain ⟨member, same⟩ := SizedCache.mem_of_find found
        rw [← same, SizedCache.weight_perm _ (SizedCache.perm_cons_filter exact.keys member)]
        rfl
  constructor
  · have others : verified.id ∉ (cache.entries.filter fun entry => entry.key ≠ verified.id).map
        CacheEntry.key := by
      simp
    rw [filled, List.map_append]
    refine List.nodup_append.mpr ⟨exact.keys.sublist (List.filter_sublist.map _),
      List.nodup_singleton _, fun one member other last => ?_⟩
    obtain rfl := List.mem_singleton.mp last
    intro same
    have same : one = verified.id := same
    exact others (same ▸ member)
  · have added : SizedCache.weight CachedManifest.count
        (filled cache verified path target now).entries =
        SizedCache.weight CachedManifest.count
          (cache.entries.filter fun entry => entry.key ≠ verified.id) +
        (setPath path target (opened cache verified).paths).length := by
      simp [filled, SizedCache.weight, CachedManifest.count]
    have bytes : (filled cache verified path target now).bytes =
        if (opened cache verified).paths.any fun entry => entry.1 = path then cache.bytes
        else cache.bytes + 1 := rfl
    rw [added, length_setPath, bytes]
    split <;> omega

end ManifestCache

section Transparency

variable (parse : Bytes → Option Manifest) (bytesOf : String → Bytes)

/-- What is kept under a digest is what the resolver finds in its bytes. -/
structure CachedManifest.Sound (manifest : CachedManifest) : Prop where
  distinct : (manifest.paths.map Prod.fst).Nodup
  resolved : ∀ entry ∈ manifest.paths,
    resolveManifest parse (bytesOf manifest.digest) entry.1 = .ok entry.2

structure ManifestCache.Sound (cache : ManifestCache) : Prop where
  exact : cache.Exact CachedManifest.count
  few : cache.bytes ≤ maxCachedManifestPaths
  manifests : ∀ entry ∈ cache.entries, entry.value.Sound parse bytesOf

/-- The calls that have missed the cache have passed its checks, and the answers are those of the
resolver. -/
structure ManifestWorld.Sound (world : ManifestWorld) : Prop where
  cache : world.cache.Sound parse bytesOf
  missed : ∀ call ∈ world.missed, checkManifestCall call = .ok () ∧
    call.verified.bytes = bytesOf call.verified.etag
  answers : ∀ answer ∈ world.answers,
    answer.2 = resolveManifest parse answer.1.verified.bytes answer.1.path

variable {parse bytesOf}

/-- A look at the cache keeps it sound, and what it finds is what the resolver finds. -/
theorem ManifestCache.Sound.get {cache after : ManifestCache} (sound : cache.Sound parse bytesOf)
    {verified : ManifestBytes} (same : verified.bytes = bytesOf verified.etag) {path : String}
    {found : Option (Option ManifestResolution)}
    (looked : cache.get verified path = (after, found)) :
    after.Sound parse bytesOf ∧
      ∀ target, found = some target → resolveManifest parse verified.bytes path = .ok target := by
  rw [ManifestCache.get] at looked
  cases held : cache.find verified.id with
  | none =>
      simp only [held, Prod.mk.injEq] at looked
      obtain ⟨rfl, rfl⟩ := looked
      exact ⟨sound, by simp⟩
  | some manifest =>
      simp only [held] at looked
      split at looked
      · obtain ⟨rfl, rfl⟩ := Prod.mk.inj looked
        exact ⟨sound, by simp⟩
      · next digest =>
          split at looked
          · obtain ⟨rfl, rfl⟩ := Prod.mk.inj looked
            exact ⟨sound, by simp⟩
          · next entry known =>
              obtain ⟨rfl, rfl⟩ := Prod.mk.inj looked
              refine ⟨⟨sound.exact.touch _ _, sound.few, fun other there => ?_⟩, ?_⟩
              · obtain ⟨old, member, rfl⟩ := List.mem_map.mp there
                split <;> exact sound.manifests old member
              · rintro target ⟨⟩
                have member := List.mem_of_find?_eq_some known
                have there := (SizedCache.mem_of_find held).1
                have resolved := (sound.manifests manifest there).resolved entry member
                have named : entry.1 = path := by simpa using List.find?_some known
                rwa [Decidable.not_not.mp digest, named, ← same] at resolved

/-- An insertion of what the resolver has found does not panic and keeps the cache sound. -/
theorem ManifestCache.Sound.insert {cache : ManifestCache} (sound : cache.Sound parse bytesOf)
    {verified : ManifestBytes} (same : verified.bytes = bytesOf verified.etag) {path : String}
    {target : Option ManifestResolution}
    (resolved : resolveManifest parse verified.bytes path = .ok target) :
    ∃ after, cache.insert verified path target = some after ∧ after.Sound parse bytesOf := by
  obtain ⟨kept, replaced, keptExact, inside, digests⟩ := exact_replaced sound.exact verified
  have manifest : (opened kept verified).digest = verified.etag ∧
      (opened kept verified).Sound parse bytesOf := by
    rw [opened]
    cases found : kept.find verified.id with
    | none => exact ⟨rfl, List.nodup_nil, by simp⟩
    | some entry =>
        exact ⟨digests entry found,
          sound.manifests entry (inside (SizedCache.mem_of_find found).1)⟩
  obtain ⟨fitted, fits, fittedExact, few, left⟩ :=
    exact_fitWithin (exact_filled keptExact verified path target (cache.clock + 1)) le_rfl
  refine ⟨⟨fitted, cache.clock + 1⟩, ?_, fittedExact, few, fun entry there => ?_⟩
  · simp only [ManifestCache.insert, replaced, Option.bind_eq_bind, Option.bind_some, fits]
    rfl
  · rcases List.mem_append.mp (left there) with old | new
    · exact sound.manifests entry (inside (List.mem_of_mem_filter old))
    · obtain rfl := List.mem_singleton.mp new
      refine ⟨nodup_setPath manifest.2.distinct, fun entry member => ?_⟩
      rcases mem_setPath member with rfl | old
      · rw [manifest.1, ← same]
        exact resolved
      · exact manifest.2.resolved entry old

/-- One step keeps the calls sound. -/
theorem ManifestWorld.Sound.step {world : ManifestWorld} (sound : world.Sound parse bytesOf)
    {event : ManifestEvent} {result : Option ManifestWorld}
    (same : ∀ call, event = .call call → call.verified.bytes = bytesOf call.verified.etag)
    (taken : ManifestStep parse (some world) event result) :
    ∃ after, result = some after ∧ after.Sound parse bytesOf := by
  have answered {call : ManifestCall} {answer : Checked (Option ManifestResolution)}
      (right : answer = resolveManifest parse call.verified.bytes call.path) :
      ∀ given ∈ world.answers ++ [(call, answer)],
        given.2 = resolveManifest parse given.1.verified.bytes given.1.path := by
    intro given member
    rcases List.mem_append.mp member with old | new
    · exact sound.answers given old
    · obtain rfl := List.mem_singleton.mp new
      exact right
  have trimmed {call : ManifestCall} (passed : checkManifestCall call = .ok ()) :
      resolveManifest parse call.verified.bytes (trimSlashes call.path) =
        resolveManifest parse call.verified.bytes call.path :=
    resolveManifest_trimSlashes parse _ (checkManifestCall_eq_ok.mp passed).2
  have missed {call : ManifestCall} : ∀ other ∈ world.missed.erase call,
      checkManifestCall other = .ok () ∧ other.verified.bytes = bytesOf other.verified.etag :=
    fun other member => sound.missed other (List.mem_of_mem_erase member)
  cases taken with
  | refused refused =>
      exact ⟨_, rfl, sound.cache, sound.missed,
        answered (resolveManifest_of_refused parse refused).symm⟩
  | hit passed looked =>
      obtain ⟨cache, found⟩ := sound.cache.get (same _ rfl) looked
      refine ⟨_, rfl, cache, sound.missed, answered ?_⟩
      rw [← trimmed passed, found _ rfl]
  | miss passed looked =>
      obtain ⟨cache, -⟩ := sound.cache.get (same _ rfl) looked
      refine ⟨_, rfl, cache, fun other member => ?_, sound.answers⟩
      rcases List.mem_append.mp member with old | new
      · exact sound.missed other old
      · obtain rfl := List.mem_singleton.mp new
        exact ⟨passed, same _ rfl⟩
  | failed member resolved =>
      refine ⟨_, rfl, sound.cache, missed, answered ?_⟩
      rw [← trimmed (sound.missed _ member).1, resolved]
  | resolved member resolved =>
      obtain ⟨passed, identified⟩ := sound.missed _ member
      obtain ⟨after, inserted, cache⟩ := sound.cache.insert identified resolved
      refine ⟨_, by rw [inserted]; rfl, cache, missed, answered ?_⟩
      rw [← trimmed passed, resolved]
  | drop member => exact ⟨_, rfl, sound.cache, missed, sound.answers⟩
  | rehash perm =>
      refine ⟨_, rfl, ⟨sound.cache.exact.rehash perm, sound.cache.few, fun entry there => ?_⟩,
        sound.missed, sound.answers⟩
      exact sound.cache.manifests entry (perm.subset there)

/-- A run keeps the calls sound. -/
theorem ManifestWorld.Sound.run {world : ManifestWorld} (sound : world.Sound parse bytesOf)
    {events : List ManifestEvent} {result : Option ManifestWorld}
    (same : ∀ call, .call call ∈ events → call.verified.bytes = bytesOf call.verified.etag)
    (run : Run (ManifestStep parse) (some world) events result) :
    ∃ after, result = some after ∧ after.Sound parse bytesOf := by
  induction events generalizing world with
  | nil =>
      cases run
      exact ⟨world, rfl, sound⟩
  | cons event events induction =>
      cases run with
      | next taken rest =>
          obtain ⟨middle, rfl, middleSound⟩ := sound.step
            (fun call asked => same call (asked ▸ List.mem_cons_self)) taken
          exact induction middleSound (fun call member => same call (List.mem_cons_of_mem _ member))
            rest

end Transparency

/-- Whatever calls are made in whatever order, and whichever manifests are given up in between:
every answer is that of the resolver, the counter is the number of paths that are kept, which are
few enough after every step, and nothing panics. -/
theorem manifest_cache_transparent (parse : Bytes → Option Manifest)
    {events : List ManifestEvent} {result : Option ManifestWorld}
    (identifies : ∀ first second, .call first ∈ events → .call second ∈ events →
      first.verified.etag = second.verified.etag → first.verified.bytes = second.verified.bytes)
    (run : Run (ManifestStep parse) (some .start) events result) :
    ∃ world, result = some world ∧
      (∀ answer ∈ world.answers,
        answer.2 = resolveManifest parse answer.1.verified.bytes answer.1.path) ∧
      (world.cache.entries.map CacheEntry.key).Nodup ∧
      (∀ entry ∈ world.cache.entries, (entry.value.paths.map Prod.fst).Nodup) ∧
      world.cache.bytes = (world.cache.entries.map fun entry => entry.value.paths.length).sum ∧
      world.cache.bytes ≤ maxCachedManifestPaths := by
  classical
  obtain ⟨bytesOf, same⟩ : ∃ bytesOf : String → Bytes, ∀ call, .call call ∈ events →
      call.verified.bytes = bytesOf call.verified.etag := by
    refine ⟨fun etag => if known : ∃ call, .call call ∈ events ∧ call.verified.etag = etag then
      known.choose.verified.bytes else [], fun call asked => ?_⟩
    have known : ∃ other, .call other ∈ events ∧ other.verified.etag = call.verified.etag :=
      ⟨call, asked, rfl⟩
    beta_reduce
    rw [dif_pos known]
    exact identifies call _ asked known.choose_spec.1 known.choose_spec.2.symm
  have start : ManifestWorld.start.Sound parse bytesOf :=
    ⟨⟨⟨List.nodup_nil, rfl⟩, Nat.zero_le _, by simp [ManifestWorld.start, ManifestCache.empty]⟩,
      by simp [ManifestWorld.start], by simp [ManifestWorld.start]⟩
  obtain ⟨world, reached, sound⟩ := start.run same run
  exact ⟨world, reached, sound.answers, sound.cache.exact.keys,
    fun entry member => (sound.cache.manifests entry member).distinct, sound.cache.exact.bytes,
    sound.cache.few⟩

/-- A manifest without paths. -/
def bareManifest : Manifest := ⟨"arweave/paths", "0.1.0", .null, .null, []⟩

theorem resolveManifest_bare {bytes : Bytes} {path : String}
    (small : bytes.length ≤ maxManifestBytes) (short : path.utf8ByteSize ≤ maxManifestPathBytes) :
    resolveManifest (fun _ => some bareManifest) bytes path = .ok none := by
  have target : manifestTarget bareManifest (trimSlashes path) = .ok none := by
    simp only [manifestTarget, pathTarget, indexTarget, bareManifest]
    split <;> rfl
  rw [resolveManifest, Checked.ensure_of small, Checked.ok_bind, Checked.ensure_of short,
    Checked.ok_bind, Checked.context, Checked.ok_bind,
    Checked.ensure_of (show bareManifest.manifest = "arweave/paths" from rfl), Checked.ok_bind,
    Checked.ensure_of (.inl rfl : bareManifest.version = "0.1.0" ∨ _), Checked.ok_bind, target]
  rfl

/-- The second call finds what the first has left. -/
theorem manifest_cache_transparent_sample :
    let verified : ManifestBytes := ⟨"id", "digest", [123, 125]⟩
    ∃ world, Run (ManifestStep fun _ => some bareManifest) (some .start)
        [.call ⟨verified, "a//"⟩, .resolve ⟨verified, "a//"⟩, .call ⟨verified, "a/"⟩] (some world) ∧
      world.answers = [(⟨verified, "a//"⟩, .ok none), (⟨verified, "a/"⟩, .ok none)] ∧
      ∀ answer ∈ world.answers, answer.2 =
        resolveManifest (fun _ => some bareManifest) answer.1.verified.bytes answer.1.path := by
  intro verified
  have trimmed : trimSlashes "a//" = "a" ∧ trimSlashes "a/" = "a" := by decide
  have found : resolveManifest (fun _ => some bareManifest) verified.bytes "a" = .ok none :=
    resolveManifest_bare (by decide) (by decide)
  have inserted : ManifestCache.empty.insert verified "a" none =
      some ⟨⟨[⟨"id", ⟨"digest", [("a", none)]⟩, 1⟩], 1⟩, 1⟩ := by
    rfl
  have looked : ManifestCache.get ⟨⟨[⟨"id", ⟨"digest", [("a", none)]⟩, 1⟩], 1⟩, 1⟩ verified "a" =
      (⟨⟨[⟨"id", ⟨"digest", [("a", none)]⟩, 2⟩], 1⟩, 2⟩, some none) := by
    rfl
  have run : Run (ManifestStep fun _ => some bareManifest) (some .start)
      [.call ⟨verified, "a//"⟩, .resolve ⟨verified, "a//"⟩, .call ⟨verified, "a/"⟩]
      (some ⟨⟨⟨[⟨"id", ⟨"digest", [("a", none)]⟩, 2⟩], 1⟩, 2⟩, [],
        [(⟨verified, "a//"⟩, .ok none), (⟨verified, "a/"⟩, .ok none)]⟩) := by
    have passed (path : String) (short : path.utf8ByteSize ≤ maxManifestPathBytes) :
        checkManifestCall ⟨verified, path⟩ = .ok () :=
      checkManifestCall_eq_ok.mpr ⟨Nat.le_of_ble_eq_true rfl, short⟩
    have resolve := @ManifestStep.resolved (fun _ => some bareManifest)
      ⟨.empty, [⟨verified, "a//"⟩], []⟩ _ none List.mem_cons_self
      (by rw [trimmed.1]; exact found)
    rw [trimmed.1, inserted] at resolve
    have hit := @ManifestStep.hit (fun _ => some bareManifest)
      ⟨⟨⟨[⟨"id", ⟨"digest", [("a", none)]⟩, 1⟩], 1⟩, 1⟩, [], [(⟨verified, "a//"⟩, .ok none)]⟩
      ⟨verified, "a/"⟩ _ none (passed _ (by decide)) (by rw [trimmed.2]; exact looked)
    refine .next (.miss (passed _ (by decide)) rfl) (.next resolve ?_)
    exact .next hit (.stop _)
  obtain ⟨world, same, answers, -⟩ := manifest_cache_transparent _ (by
    rintro first second asked other -
    simp only [List.mem_cons, ManifestEvent.call.injEq, reduceCtorEq, List.not_mem_nil, or_false,
      false_or] at asked other
    rcases asked with rfl | rfl <;> rcases other with rfl | rfl <;> rfl) run
  obtain rfl := Option.some.inj same
  exact ⟨_, run, rfl, answers⟩

end ArIoGateway
