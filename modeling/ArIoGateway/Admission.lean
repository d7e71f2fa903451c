import ArIoGateway.Bundles
import ArIoGateway.BundleScan
import ArIoGateway.Foundation.MachineWords
import ArIoGateway.Foundation.Runs

/-!
# Admission of background work

Bundle jobs hold reservations of a shared budget of bytes and job slots.  Scheduled work has limits
of its own, which leave room for the jobs that requests hand off.
-/

namespace ArIoGateway

/-- The job slots kept for requests. -/
def maxJobs : Nat := 8

/-- The limits of an admission. -/
structure Admission where
  maxBytes : Nat
  maxJobs : Nat
  maxScheduledJobs : Nat
  maxScheduledBytes : Nat
  maxBytes_lt : maxBytes < wordBound
  maxJobs_lt : maxJobs < wordBound
  maxScheduledJobs_le : maxScheduledJobs ≤ maxJobs
  maxScheduledBytes_le : maxScheduledBytes ≤ maxBytes

/-- What an admission keeps under its lock. -/
structure AdmissionState where
  ids : List (FixedBytes 32)
  scanCursors : List (FixedBytes 32 × Nat × Option BundleScan)
  bytes : Nat
  scheduledBytes : Nat
  scheduledJobs : Nat
  closed : Bool

/-- The bytes and the job slot that one job holds. -/
structure Reservation where
  id : FixedBytes 32
  bytes : Nat
  scheduled : Bool
deriving DecidableEq

namespace Admission

/-- The limits without headroom for requests, or with half of the bytes and some jobs kept. -/
def new (maxBytes jobs : Word) (requestHeadroom : Bool) : Option Admission :=
  if requestHeadroom then
    if ArIoGateway.maxJobs ≤ jobs.val then
      some
        { maxBytes := maxBytes
          maxJobs := jobs
          maxScheduledJobs := jobs - ArIoGateway.maxJobs
          maxScheduledBytes := maxBytes / 2
          maxBytes_lt := maxBytes.isLt
          maxJobs_lt := jobs.isLt
          maxScheduledJobs_le := Nat.sub_le _ _
          maxScheduledBytes_le := Nat.div_le_self _ _ }
    else none
  else
    some
      { maxBytes := maxBytes
        maxJobs := jobs
        maxScheduledJobs := jobs
        maxScheduledBytes := maxBytes
        maxBytes_lt := maxBytes.isLt
        maxJobs_lt := jobs.isLt
        maxScheduledJobs_le := le_rfl
        maxScheduledBytes_le := le_rfl }

end Admission

namespace AdmissionState

/-- The state of a new admission. -/
def empty : AdmissionState where
  ids := []
  scanCursors := []
  bytes := 0
  scheduledBytes := 0
  scheduledJobs := 0
  closed := false

variable (admission : Admission)

/-- Whether a reservation is refused; nothing when the comparison itself overflows. -/
def refuses (state : AdmissionState) (paused : Bool) (id : FixedBytes 32) (bytes : Nat)
    (scheduled : Bool) : Option Bool :=
  if paused || state.closed || state.ids.length == admission.maxJobs || state.ids.contains id then
    some true
  else do
    let room ← Word.sub admission.maxBytes state.bytes
    if bytes > room then
      some true
    else if scheduled then
      let room ← Word.sub admission.maxScheduledBytes state.scheduledBytes
      some (bytes > room || state.scheduledJobs == admission.maxScheduledJobs)
    else
      some false

/-- Reserve bytes and a job slot, unless another thread holds the lock. -/
def reserveInner (state : AdmissionState) (contended paused : Bool) (id : FixedBytes 32)
    (bytes : Nat) (scheduled : Bool) : Option (AdmissionState × Option Reservation) :=
  if contended then
    some (state, none)
  else do
    if ← state.refuses admission paused id bytes scheduled then
      return (state, none)
    let state := { state with ids := state.ids ++ [id] }
    let state := { state with bytes := ← Word.add state.bytes bytes }
    if scheduled then
      let state := { state with scheduledBytes := ← Word.add state.scheduledBytes bytes }
      let state := { state with scheduledJobs := ← Word.add state.scheduledJobs 1 }
      return (state, some ⟨id, bytes, scheduled⟩)
    else
      return (state, some ⟨id, bytes, scheduled⟩)

/-- Reserve for a request. -/
def reserve (state : AdmissionState) (contended paused : Bool) (id : FixedBytes 32) (bytes : Nat) :
    Option (AdmissionState × Option Reservation) :=
  state.reserveInner admission contended paused id bytes false

/-- Reserve for a scheduled download, with room for its metadata. -/
def reserveScheduled (state : AdmissionState) (contended paused : Bool) (id : FixedBytes 32)
    (dataSize : Nat) : Option (AdmissionState × Option Reservation) :=
  (Word.add dataSize maxJsonBytes).elim (some (state, none)) fun bytes =>
    state.reserveInner admission contended paused id bytes true

/-- Remember the page of an identifier that is held, or an earlier page of it. -/
def trackScan (state : AdmissionState) (id : FixedBytes 32) (sequence : Nat)
    (after : Option BundleScan) : AdmissionState :=
  if state.ids.contains id then
    match state.scanCursors.find? fun entry => entry.1 = id with
    | some saved =>
        if sequence < saved.2.1 then
          { state with
            scanCursors := state.scanCursors.map fun entry =>
              if entry.1 = id then (id, sequence, after) else entry }
        else state
    | none => { state with scanCursors := state.scanCursors ++ [(id, sequence, after)] }
  else state

/-- Give back the bytes that a job turned out not to need. -/
def shrink (state : AdmissionState) (reservation : Reservation) (bytes : Nat) :
    Option (Checked (AdmissionState × Reservation)) :=
  if bytes ≤ reservation.bytes then do
    let unused ← Word.sub reservation.bytes bytes
    let state := { state with bytes := ← Word.sub state.bytes unused }
    if reservation.scheduled then
      let state := { state with scheduledBytes := ← Word.sub state.scheduledBytes unused }
      return .ok (state, { reservation with bytes := bytes })
    else
      return .ok (state, { reservation with bytes := bytes })
  else
    return .error "bundle exceeds retained-byte reservation"

/-- What the end of a reservation gives back. -/
def release (state : AdmissionState) (reservation : Reservation) : Option AdmissionState := do
  let state :=
    { state with
      ids := state.ids.filter (· ≠ reservation.id)
      scanCursors := state.scanCursors.filter (·.1 ≠ reservation.id) }
  let state := { state with bytes := ← Word.sub state.bytes reservation.bytes }
  if reservation.scheduled then
    let state :=
      { state with scheduledBytes := ← Word.sub state.scheduledBytes reservation.bytes }
    let state := { state with scheduledJobs := ← Word.sub state.scheduledJobs 1 }
    return state
  else
    return state

end AdmissionState

/-- An admission with the reservations that are live. -/
structure AdmissionPool where
  state : AdmissionState
  live : List Reservation

/-- What the holders of an admission can do to it.  A reservation is named by its place among the
live ones. -/
inductive AdmissionAction where
  | reserve (contended paused : Bool) (id : FixedBytes 32) (bytes : Nat)
  | reserveScheduled (contended paused : Bool) (id : FixedBytes 32) (dataSize : Nat)
  | shrink (place : Nat) (bytes : Nat)
  | drop (place : Nat)
  | trackScan (id : FixedBytes 32) (sequence : Nat) (after : Option BundleScan)
  | close

namespace AdmissionPool

def empty : AdmissionPool := ⟨.empty, []⟩

/-- Keep a reservation that was made. -/
def receive (pool : AdmissionPool) (outcome : AdmissionState × Option Reservation) : AdmissionPool :=
  ⟨outcome.1, pool.live ++ outcome.2.toList⟩

/-- The pool after an action; nothing when some arithmetic in it overflows. -/
def step (admission : Admission) (pool : AdmissionPool) :
    AdmissionAction → Option AdmissionPool
  | .reserve contended paused id bytes =>
      (pool.state.reserve admission contended paused id bytes).map pool.receive
  | .reserveScheduled contended paused id dataSize =>
      (pool.state.reserveScheduled admission contended paused id dataSize).map pool.receive
  | .shrink place bytes =>
      match pool.live[place]? with
      | none => some pool
      | some reservation =>
          (pool.state.shrink reservation bytes).map fun outcome =>
            match outcome with
            | .ok (state, reservation) => ⟨state, pool.live.set place reservation⟩
            | .error _ => pool
  | .drop place =>
      match pool.live[place]? with
      | none => some pool
      | some reservation =>
          (pool.state.release reservation).map (⟨·, pool.live.eraseIdx place⟩)
  | .trackScan id sequence after => some { pool with state := pool.state.trackScan id sequence after }
  | .close => some { pool with state := { pool.state with closed := true } }

/-- The bytes that some reservations hold. -/
def held (reservations : List Reservation) : Nat := (reservations.map Reservation.bytes).sum

/-- The reservations of scheduled work. -/
def scheduledOf (reservations : List Reservation) : List Reservation :=
  reservations.filter Reservation.scheduled

/-- The reservations of requests. -/
def requestedOf (reservations : List Reservation) : List Reservation :=
  reservations.filter fun reservation => !reservation.scheduled

/-- The state counts what the live reservations hold, within the limits. -/
structure Accounted (admission : Admission) (pool : AdmissionPool) : Prop where
  ids : pool.state.ids.Perm (pool.live.map Reservation.id)
  distinct : (pool.live.map Reservation.id).Nodup
  cursors : ∀ entry ∈ pool.state.scanCursors, entry.1 ∈ pool.live.map Reservation.id
  bytes : pool.state.bytes = held pool.live
  scheduledBytes : pool.state.scheduledBytes = held (scheduledOf pool.live)
  scheduledJobs : pool.state.scheduledJobs = (scheduledOf pool.live).length
  bytes_le : held pool.live ≤ admission.maxBytes
  jobs_le : pool.live.length ≤ admission.maxJobs
  scheduledBytes_le : held (scheduledOf pool.live) ≤ admission.maxScheduledBytes
  scheduledJobs_le : (scheduledOf pool.live).length ≤ admission.maxScheduledJobs

/-- What the live reservations must leave for a reservation to be made. -/
structure Admits (admission : Admission) (pool : AdmissionPool) (paused : Bool)
    (id : FixedBytes 32) (bytes : Nat) (scheduled : Bool) : Prop where
  running : paused = false
  accepting : pool.state.closed = false
  slot : pool.live.length < admission.maxJobs
  fresh : id ∉ pool.live.map Reservation.id
  room : held pool.live + bytes ≤ admission.maxBytes
  scheduledRoom : scheduled = true →
    held (scheduledOf pool.live) + bytes ≤ admission.maxScheduledBytes
  scheduledSlot : scheduled = true → (scheduledOf pool.live).length < admission.maxScheduledJobs

variable {admission : Admission} {pool : AdmissionPool}

@[simp] theorem held_nil : held [] = 0 := rfl

@[simp] theorem held_cons (reservation : Reservation) (reservations : List Reservation) :
    held (reservation :: reservations) = reservation.bytes + held reservations := by
  simp [held]

@[simp] theorem held_append (left right : List Reservation) :
    held (left ++ right) = held left + held right := by
  simp [held]

@[simp] theorem scheduledOf_append (left right : List Reservation) :
    scheduledOf (left ++ right) = scheduledOf left ++ scheduledOf right := by
  simp [scheduledOf]

@[simp] theorem scheduledOf_nil : scheduledOf [] = [] := rfl

@[simp] theorem scheduledOf_cons (reservation : Reservation) (reservations : List Reservation) :
    scheduledOf (reservation :: reservations) =
      if reservation.scheduled then reservation :: scheduledOf reservations
      else scheduledOf reservations := by
  cases kind : reservation.scheduled <;> simp [scheduledOf, kind]

theorem held_requested_add (reservations : List Reservation) :
    held (requestedOf reservations) + held (scheduledOf reservations) = held reservations := by
  induction reservations with
  | nil => rfl
  | cons reservation reservations induction =>
      unfold requestedOf scheduledOf at *
      cases kind : reservation.scheduled <;> simp [kind] <;> omega

theorem length_requested_add (reservations : List Reservation) :
    (requestedOf reservations).length + (scheduledOf reservations).length = reservations.length := by
  induction reservations with
  | nil => rfl
  | cons reservation reservations induction =>
      unfold requestedOf scheduledOf at *
      cases kind : reservation.scheduled <;> simp [kind] <;> omega

theorem accounted_empty (admission : Admission) : Accounted admission empty := by
  constructor <;> simp [empty, AdmissionState.empty, scheduledOf]

/-- The comparisons of a reservation never overflow, and they compare what is live. -/
theorem refuses_spec (accounted : Accounted admission pool) (paused : Bool) (id : FixedBytes 32)
    (bytes : Nat) (scheduled : Bool) :
    ∃ refused, pool.state.refuses admission paused id bytes scheduled = some refused ∧
      (refused = false ↔ Admits admission pool paused id bytes scheduled) := by
  have sameId : id ∈ pool.state.ids ↔ id ∈ pool.live.map Reservation.id :=
    accounted.ids.mem_iff
  have sameLength : pool.state.ids.length = pool.live.length := by
    simpa using accounted.ids.length_eq
  have jobs := accounted.jobs_le
  have scheduledJobs := accounted.scheduledJobs_le
  have total := accounted.bytes_le
  have scheduledTotal := accounted.scheduledBytes_le
  unfold AdmissionState.refuses
  rw [accounted.bytes, accounted.scheduledBytes, accounted.scheduledJobs, sameLength]
  split
  · next refused =>
      refine ⟨true, rfl, by simp, fun admits => ?_⟩
      have unseen := mt sameId.mp admits.fresh
      have slot := admits.slot
      simp [admits.running, admits.accepting, unseen] at refused
      omega
  · next open_ =>
      simp only [Bool.or_eq_true, not_or, Bool.not_eq_true, beq_eq_false_iff_ne,
        List.contains_eq_mem, decide_eq_false_iff_not] at open_
      obtain ⟨⟨⟨running, accepting⟩, slot⟩, fresh⟩ := open_
      rw [Word.sub_of_le total]
      simp only [Option.bind_eq_bind, Option.bind_some]
      split
      · next large =>
          refine ⟨true, rfl, by simp, fun admits => ?_⟩
          have room := admits.room
          omega
      · next small =>
          cases scheduled with
          | false =>
              refine ⟨false, rfl, fun _ => ?_, fun _ => rfl⟩
              exact
                { running, accepting
                  slot := by omega
                  fresh := mt sameId.mpr fresh
                  room := by omega
                  scheduledRoom := by simp
                  scheduledSlot := by simp }
          | true =>
              rw [if_pos rfl, Word.sub_of_le scheduledTotal]
              refine ⟨_, rfl, ?_⟩
              simp only [Bool.or_eq_false_iff, decide_eq_false_iff_not, beq_eq_false_iff_ne]
              constructor
              · rintro ⟨scheduledRoom, scheduledSlot⟩
                exact
                  { running, accepting
                    slot := by omega
                    fresh := mt sameId.mpr fresh
                    room := by omega
                    scheduledRoom := fun _ => by omega
                    scheduledSlot := fun _ => by omega }
              · intro admits
                have scheduledRoom := admits.scheduledRoom rfl
                have scheduledSlot := admits.scheduledSlot rfl
                omega

/-- A reservation that is not admitted changes nothing. -/
theorem reserveInner_of_not_admits (accounted : Accounted admission pool) {paused : Bool}
    {id : FixedBytes 32} {bytes : Nat} {scheduled : Bool} (contended : Bool)
    (refused : ¬ Admits admission pool paused id bytes scheduled) :
    pool.state.reserveInner admission contended paused id bytes scheduled =
      some (pool.state, none) := by
  obtain ⟨outcome, refuses, decides⟩ := refuses_spec accounted paused id bytes scheduled
  have outcome_true : outcome = true := by
    simpa using mt decides.mp refused
  unfold AdmissionState.reserveInner
  cases contended <;> simp [refuses, outcome_true]

/-- A reservation that is admitted is counted. -/
theorem reserveInner_of_admits (accounted : Accounted admission pool) {paused : Bool}
    {id : FixedBytes 32} {bytes : Nat} {scheduled : Bool}
    (admits : Admits admission pool paused id bytes scheduled) :
    ∃ state, pool.state.reserveInner admission false paused id bytes scheduled =
        some (state, some ⟨id, bytes, scheduled⟩) ∧
      Accounted admission ⟨state, pool.live ++ [⟨id, bytes, scheduled⟩]⟩ := by
  obtain ⟨outcome, refuses, decides⟩ := refuses_spec accounted paused id bytes scheduled
  obtain rfl := decides.mpr admits
  have small := admission.maxBytes_lt
  have few := admission.maxJobs_lt
  have scheduledSmall := admission.maxScheduledBytes_le
  have scheduledFew := admission.maxScheduledJobs_le
  have room := admits.room
  have slot := admits.slot
  have total : Word.add pool.state.bytes bytes = some (held pool.live + bytes) := by
    rw [accounted.bytes]
    exact Word.add_of_lt (by omega)
  have ids : (pool.state.ids ++ [id]).Perm (pool.live.map Reservation.id ++ [id]) :=
    accounted.ids.append_right [id]
  have distinct : (pool.live.map Reservation.id ++ [id]).Nodup := by
    refine List.nodup_append.mpr ⟨accounted.distinct, by simp, ?_⟩
    rintro held member other single rfl
    exact admits.fresh (List.mem_singleton.mp single ▸ member)
  have cursors : ∀ entry ∈ pool.state.scanCursors,
      entry.1 ∈ pool.live.map Reservation.id ++ [id] := fun entry member =>
    List.mem_append_left _ (accounted.cursors entry member)
  cases scheduled with
  | false =>
      refine ⟨{ pool.state with
        ids := pool.state.ids ++ [id]
        bytes := held pool.live + bytes }, ?_, ?_⟩
      · simp [AdmissionState.reserveInner, refuses, total]
      · exact
          { ids := by simpa using ids
            distinct := by simpa using distinct
            cursors := by simpa using cursors
            bytes := by simp
            scheduledBytes := by simpa using accounted.scheduledBytes
            scheduledJobs := by simpa using accounted.scheduledJobs
            bytes_le := by simpa using room
            jobs_le := by simpa using slot
            scheduledBytes_le := by simpa using accounted.scheduledBytes_le
            scheduledJobs_le := by simpa using accounted.scheduledJobs_le }
  | true =>
      have scheduledRoom := admits.scheduledRoom rfl
      have scheduledSlot := admits.scheduledSlot rfl
      have scheduledTotal : Word.add pool.state.scheduledBytes bytes =
          some (held (scheduledOf pool.live) + bytes) := by
        rw [accounted.scheduledBytes]
        exact Word.add_of_lt (by omega)
      have scheduledCount : Word.add pool.state.scheduledJobs 1 =
          some ((scheduledOf pool.live).length + 1) := by
        rw [accounted.scheduledJobs]
        exact Word.add_of_lt (by omega)
      refine ⟨{ pool.state with
        ids := pool.state.ids ++ [id]
        bytes := held pool.live + bytes
        scheduledBytes := held (scheduledOf pool.live) + bytes
        scheduledJobs := (scheduledOf pool.live).length + 1 }, ?_, ?_⟩
      · simp [AdmissionState.reserveInner, refuses, total, scheduledTotal, scheduledCount]
      · exact
          { ids := by simpa using ids
            distinct := by simpa using distinct
            cursors := by simpa using cursors
            bytes := by simp
            scheduledBytes := by simp
            scheduledJobs := by simp
            bytes_le := by simpa using room
            jobs_le := by simpa using slot
            scheduledBytes_le := by simpa using scheduledRoom
            scheduledJobs_le := by simpa using scheduledSlot }

/-- A live reservation, with what stands before and behind it. -/
theorem exists_around {live : List Reservation} {place : Nat} {reservation : Reservation}
    (found : live[place]? = some reservation) :
    ∃ front back, live = front ++ reservation :: back ∧
      (∀ other, live.set place other = front ++ other :: back) ∧
      live.eraseIdx place = front ++ back := by
  obtain ⟨inside, rfl⟩ := List.getElem?_eq_some_iff.mp found
  refine ⟨live.take place, live.drop (place + 1), ?_, fun other => ?_, ?_⟩
  · simp
  · simp [List.set_eq_take_append_cons_drop, inside]
  · exact List.eraseIdx_eq_take_drop_succ live place

section Around

variable {state : AdmissionState} {front back : List Reservation} {reservation : Reservation}

/-- A reservation that becomes smaller is counted with its new size. -/
theorem shrink_of_le
    (accounted : Accounted admission ⟨state, front ++ reservation :: back⟩) {bytes : Nat}
    (smaller : bytes ≤ reservation.bytes) :
    ∃ after, state.shrink reservation bytes =
        some (.ok (after, { reservation with bytes := bytes })) ∧
      Accounted admission ⟨after, front ++ { reservation with bytes := bytes } :: back⟩ := by
  obtain ⟨id, size, kind⟩ := reservation
  have total := accounted.bytes
  have total_le := accounted.bytes_le
  have scheduledTotal := accounted.scheduledBytes
  have scheduledTotal_le := accounted.scheduledBytes_le
  have count := accounted.scheduledJobs
  have count_le := accounted.scheduledJobs_le
  simp only at smaller
  have unused : Word.sub size bytes = some (size - bytes) := Word.sub_of_le smaller
  simp only [held_append, held_cons] at total total_le
  have remaining : Word.sub state.bytes (size - bytes) =
      some (held front + (bytes + held back)) := by
    rw [total, Word.sub_of_le (by omega)]
    congr 1
    omega
  cases kind with
  | false =>
      refine ⟨{ state with bytes := held front + (bytes + held back) }, ?_, ?_⟩
      · simp [AdmissionState.shrink, smaller, unused, remaining]
      · exact
          { ids := by simpa using accounted.ids
            distinct := by simpa using accounted.distinct
            cursors := by simpa using accounted.cursors
            bytes := by simp
            scheduledBytes := by simpa using scheduledTotal
            scheduledJobs := by simpa using count
            bytes_le := by
              simp only [held_append, held_cons]
              omega
            jobs_le := by simpa using accounted.jobs_le
            scheduledBytes_le := by simpa using scheduledTotal_le
            scheduledJobs_le := by simpa using count_le }
  | true =>
      simp only [scheduledOf_append, scheduledOf_cons, if_true, held_append, held_cons]
        at scheduledTotal scheduledTotal_le
      have scheduledRemaining : Word.sub state.scheduledBytes (size - bytes) =
          some (held (scheduledOf front) + (bytes + held (scheduledOf back))) := by
        rw [scheduledTotal, Word.sub_of_le (by omega)]
        congr 1
        omega
      refine ⟨{ state with
        bytes := held front + (bytes + held back)
        scheduledBytes := held (scheduledOf front) + (bytes + held (scheduledOf back)) }, ?_, ?_⟩
      · simp [AdmissionState.shrink, smaller, unused, remaining, scheduledRemaining]
      · exact
          { ids := by simpa using accounted.ids
            distinct := by simpa using accounted.distinct
            cursors := by simpa using accounted.cursors
            bytes := by simp
            scheduledBytes := by simp
            scheduledJobs := by simpa using count
            bytes_le := by
              simp only [held_append, held_cons]
              omega
            jobs_le := by simpa using accounted.jobs_le
            scheduledBytes_le := by
              simp only [scheduledOf_append, scheduledOf_cons, if_true, held_append, held_cons]
              omega
            scheduledJobs_le := by simpa using count_le }

/-- The end of a reservation takes it out of every count. -/
theorem release_spec
    (accounted : Accounted admission ⟨state, front ++ reservation :: back⟩) :
    ∃ after, state.release reservation = some after ∧
      Accounted admission ⟨after, front ++ back⟩ := by
  obtain ⟨id, size, kind⟩ := reservation
  have total := accounted.bytes
  have total_le := accounted.bytes_le
  have jobs_le := accounted.jobs_le
  have scheduledTotal := accounted.scheduledBytes
  have scheduledTotal_le := accounted.scheduledBytes_le
  have count := accounted.scheduledJobs
  have count_le := accounted.scheduledJobs_le
  simp only [held_append, held_cons] at total total_le
  have remaining : Word.sub state.bytes size = some (held front + held back) := by
    rw [total, Word.sub_of_le (by omega)]
    congr 1
    omega
  -- The identifiers are distinct, so the filter takes out this one reservation.
  have distinct : (id :: (front ++ back).map Reservation.id).Nodup := by
    have whole := accounted.distinct
    rw [List.map_append, List.map_cons, List.nodup_middle] at whole
    simpa using whole
  obtain ⟨gone, others⟩ := List.nodup_cons.mp distinct
  have ids : (state.ids.filter (· ≠ id)).Perm ((front ++ back).map Reservation.id) := by
    have moved : state.ids.Perm (id :: (front ++ back).map Reservation.id) := by
      refine accounted.ids.trans ?_
      simp
    refine (moved.filter _).trans ?_
    rw [List.filter_cons_of_neg (by simp), List.filter_eq_self.mpr]
    intro other member
    exact decide_eq_true fun same => gone (same ▸ member)
  have cursors : ∀ entry ∈ state.scanCursors.filter (·.1 ≠ id),
      entry.1 ∈ (front ++ back).map Reservation.id := by
    intro entry member
    obtain ⟨member, other⟩ := List.mem_filter.mp member
    have inside := accounted.cursors entry member
    simp only [List.map_append, List.map_cons, List.mem_append, List.mem_cons] at inside ⊢
    have differs : entry.1 ≠ id := of_decide_eq_true other
    tauto
  cases kind with
  | false =>
      refine ⟨{ state with
        ids := state.ids.filter (· ≠ id)
        scanCursors := state.scanCursors.filter (·.1 ≠ id)
        bytes := held front + held back }, ?_, ?_⟩
      · simp [AdmissionState.release, remaining]
      · exact
          { ids, distinct := others, cursors
            bytes := by simp
            scheduledBytes := by simpa using scheduledTotal
            scheduledJobs := by simpa using count
            bytes_le := by
              simp only [held_append]
              omega
            jobs_le := by
              simp only [List.length_append, List.length_cons] at jobs_le ⊢
              omega
            scheduledBytes_le := by simpa using scheduledTotal_le
            scheduledJobs_le := by simpa using count_le }
  | true =>
      simp only [scheduledOf_append, scheduledOf_cons, if_true, held_append, held_cons,
        List.length_append, List.length_cons] at scheduledTotal scheduledTotal_le count count_le
      have scheduledRemaining : Word.sub state.scheduledBytes size =
          some (held (scheduledOf front) + held (scheduledOf back)) := by
        rw [scheduledTotal, Word.sub_of_le (by omega)]
        congr 1
        omega
      have scheduledCount : Word.sub state.scheduledJobs 1 =
          some ((scheduledOf front).length + (scheduledOf back).length) := by
        rw [count, Word.sub_of_le (by omega)]
        congr 1
      refine ⟨{ state with
        ids := state.ids.filter (· ≠ id)
        scanCursors := state.scanCursors.filter (·.1 ≠ id)
        bytes := held front + held back
        scheduledBytes := held (scheduledOf front) + held (scheduledOf back)
        scheduledJobs := (scheduledOf front).length + (scheduledOf back).length }, ?_, ?_⟩
      · simp [AdmissionState.release, remaining, scheduledRemaining, scheduledCount]
      · exact
          { ids, distinct := others, cursors
            bytes := by simp
            scheduledBytes := by simp
            scheduledJobs := by simp
            bytes_le := by
              simp only [held_append]
              omega
            jobs_le := by
              simp only [List.length_append, List.length_cons] at jobs_le ⊢
              omega
            scheduledBytes_le := by
              simp only [scheduledOf_append, held_append]
              omega
            scheduledJobs_le := by
              simp only [scheduledOf_append, List.length_append]
              omega }

end Around

theorem reserveInner_accounted (accounted : Accounted admission pool) (contended paused : Bool)
    (id : FixedBytes 32) (bytes : Nat) (scheduled : Bool) :
    ∃ outcome, pool.state.reserveInner admission contended paused id bytes scheduled =
      some outcome ∧ Accounted admission (pool.receive outcome) := by
  by_cases admits : contended = false ∧ Admits admission pool paused id bytes scheduled
  · obtain ⟨rfl, admits⟩ := admits
    obtain ⟨state, reserved, after⟩ := reserveInner_of_admits accounted admits
    exact ⟨_, reserved, after⟩
  · refine ⟨(pool.state, none), ?_, by simpa [receive] using accounted⟩
    cases contended with
    | true => rfl
    | false => exact reserveInner_of_not_admits accounted false (by simpa using admits)

theorem trackScan_accounted (accounted : Accounted admission pool) (id : FixedBytes 32)
    (sequence : Nat) (after : Option BundleScan) :
    Accounted admission { pool with state := pool.state.trackScan id sequence after } := by
  unfold AdmissionState.trackScan
  split
  · next held =>
      have live : id ∈ pool.live.map Reservation.id :=
        accounted.ids.mem_iff.mp (by simpa using held)
      split
      · split
        · refine { accounted with cursors := ?_ }
          simp only [List.mem_map, forall_exists_index, and_imp]
          rintro _ entry member rfl
          split
          · exact List.mem_map.mp live
          · exact List.mem_map.mp (accounted.cursors entry member)
        · exact accounted
      · refine { accounted with cursors := ?_ }
        intro entry member
        rcases List.mem_append.mp member with earlier | added
        · exact accounted.cursors entry earlier
        · rw [List.mem_singleton.mp added]
          exact live
  · exact accounted

theorem reserveScheduled_of_overflow (state : AdmissionState) (contended paused : Bool)
    (id : FixedBytes 32) {dataSize : Nat} (size : Word.add dataSize maxJsonBytes = none) :
    state.reserveScheduled admission contended paused id dataSize = some (state, none) := by
  unfold AdmissionState.reserveScheduled
  rw [size, Option.elim_none]

theorem reserveScheduled_of_fits (state : AdmissionState) (contended paused : Bool)
    (id : FixedBytes 32) {dataSize bytes : Nat} (size : Word.add dataSize maxJsonBytes = some bytes) :
    state.reserveScheduled admission contended paused id dataSize =
      state.reserveInner admission contended paused id bytes true := by
  unfold AdmissionState.reserveScheduled
  rw [size, Option.elim_some]

/-- Every action is possible, and the state still counts what is live after it. -/
theorem step_accounted (accounted : Accounted admission pool) (action : AdmissionAction) :
    ∃ after, pool.step admission action = some after ∧ Accounted admission after := by
  cases action with
  | reserve contended paused id bytes =>
      obtain ⟨outcome, reserved, after⟩ :=
        reserveInner_accounted accounted contended paused id bytes false
      exact ⟨_, by simp [step, AdmissionState.reserve, reserved], after⟩
  | reserveScheduled contended paused id dataSize =>
      cases size : Word.add dataSize maxJsonBytes with
      | none =>
          refine ⟨pool, ?_, accounted⟩
          rw [step, reserveScheduled_of_overflow pool.state contended paused id size,
            Option.map_some, receive, Option.toList_none, List.append_nil]
      | some bytes =>
          obtain ⟨outcome, reserved, after⟩ :=
            reserveInner_accounted accounted contended paused id bytes true
          refine ⟨pool.receive outcome, ?_, after⟩
          rw [step, reserveScheduled_of_fits pool.state contended paused id size, reserved,
            Option.map_some]
  | shrink place bytes =>
      cases found : pool.live[place]? with
      | none => exact ⟨pool, by simp [step, found], accounted⟩
      | some reservation =>
          obtain ⟨front, back, live, set, _⟩ := exists_around found
          have around : Accounted admission ⟨pool.state, front ++ reservation :: back⟩ :=
            live ▸ accounted
          by_cases smaller : bytes ≤ reservation.bytes
          · obtain ⟨state, shrunk, after⟩ := shrink_of_le around smaller
            refine ⟨⟨state, front ++ { reservation with bytes := bytes } :: back⟩, ?_, after⟩
            simp [step, found, shrunk, set]
          · exact ⟨pool, by simp [step, found, AdmissionState.shrink, smaller], accounted⟩
  | drop place =>
      cases found : pool.live[place]? with
      | none => exact ⟨pool, by simp [step, found], accounted⟩
      | some reservation =>
          obtain ⟨front, back, live, _, erase⟩ := exists_around found
          have around : Accounted admission ⟨pool.state, front ++ reservation :: back⟩ :=
            live ▸ accounted
          obtain ⟨state, released, after⟩ := release_spec around
          exact ⟨⟨state, front ++ back⟩, by simp [step, found, released, erase], after⟩
  | trackScan id sequence after =>
      exact ⟨_, rfl, trackScan_accounted accounted id sequence after⟩
  | close => exact ⟨_, rfl, { accounted with }⟩

theorem run_accounted (actions : List AdmissionAction) :
    ∃ pool, Run (fun before action after => step admission before action = some after)
      empty actions pool ∧ Accounted admission pool :=
  Run.exists_of_total (fun _ action accounted => step_accounted accounted action) empty actions
    (accounted_empty admission)

theorem reserveInner_eq_none {state after : AdmissionState} {contended paused : Bool}
    {id : FixedBytes 32} {bytes : Nat} {scheduled : Bool}
    (refused : state.reserveInner admission contended paused id bytes scheduled =
      some (after, none)) : after = state := by
  unfold AdmissionState.reserveInner at refused
  cases contended with
  | true => simpa using refused.symm
  | false =>
      simp only [Bool.false_eq_true, if_false, Option.bind_eq_bind, Option.bind_eq_some_iff]
        at refused
      obtain ⟨outcome, _, refused⟩ := refused
      cases outcome <;> cases scheduled <;> simp_all [Option.bind_eq_some_iff]

end AdmissionPool

namespace Admission

variable {maxBytes jobs : Word} {requestHeadroom : Bool} {admission : Admission}

theorem limits_of_new (built : Admission.new maxBytes jobs requestHeadroom = some admission) :
    admission.maxBytes = maxBytes ∧ admission.maxJobs = jobs := by
  unfold Admission.new at built
  split at built
  · split at built
    · cases built
      exact ⟨rfl, rfl⟩
    · cases built
  · cases built
    exact ⟨rfl, rfl⟩

theorem headroom_of_new (built : Admission.new maxBytes jobs true = some admission) :
    ArIoGateway.maxJobs ≤ jobs ∧ admission.maxScheduledBytes = maxBytes / 2 ∧
      admission.maxScheduledJobs = jobs - ArIoGateway.maxJobs := by
  unfold Admission.new at built
  rw [if_pos rfl] at built
  split at built
  · next enough =>
      cases built
      exact ⟨enough, rfl, rfl⟩
  · cases built

end Admission

open AdmissionPool

/-- Whatever is reserved, shrunk and dropped in whatever order, the state counts exactly what is
live, no arithmetic overflows, no limit is passed, and a refused reservation changes nothing.
With headroom, scheduled work leaves the job slots and half of the bytes to requests. -/
theorem admission_accounting {maxBytes jobs : Word} {requestHeadroom : Bool}
    {admission : Admission}
    (built : Admission.new maxBytes jobs requestHeadroom = some admission)
    (actions : List AdmissionAction) :
    ∃ pool, Run (fun before action after => step admission before action = some after)
        AdmissionPool.empty actions pool ∧
      Accounted admission pool ∧
      (held pool.live ≤ maxBytes ∧ pool.live.length ≤ jobs) ∧
      (requestHeadroom = true →
        (scheduledOf pool.live).length + maxJobs ≤ jobs ∧
        held (scheduledOf pool.live) ≤ maxBytes / 2 ∧
        ∀ id bytes, pool.state.closed = false → id ∉ pool.live.map Reservation.id →
          (requestedOf pool.live).length < maxJobs →
          held (requestedOf pool.live) + bytes ≤ maxBytes - maxBytes / 2 →
          ∃ state, pool.state.reserve admission false false id bytes =
            some (state, some ⟨id, bytes, false⟩)) ∧
      (∀ contended paused id bytes state,
        pool.state.reserve admission contended paused id bytes = some (state, none) →
        state = pool.state) ∧
      (∀ contended paused id dataSize state,
        pool.state.reserveScheduled admission contended paused id dataSize = some (state, none) →
        state = pool.state) := by
  obtain ⟨pool, run, accounted⟩ := @run_accounted admission actions
  have total := accounted.bytes_le
  have slots := accounted.jobs_le
  have scheduledTotal := accounted.scheduledBytes_le
  have scheduledSlots := accounted.scheduledJobs_le
  obtain ⟨sameBytes, sameJobs⟩ := Admission.limits_of_new built
  refine ⟨pool, run, accounted, ⟨sameBytes ▸ total, sameJobs ▸ slots⟩, ?_, ?_, ?_⟩
  · rintro rfl
    obtain ⟨enough, scheduledBytes, scheduledJobs⟩ := Admission.headroom_of_new built
    rw [scheduledJobs] at scheduledSlots
    rw [scheduledBytes] at scheduledTotal
    refine ⟨by omega, scheduledTotal, fun id bytes accepting fresh few small => ?_⟩
    have splitBytes := held_requested_add pool.live
    have splitJobs := length_requested_add pool.live
    have half := Nat.div_le_self maxBytes.val 2
    have admits : Admits admission pool false id bytes false :=
      { running := rfl
        accepting, fresh
        slot := by omega
        room := by omega
        scheduledRoom := by simp
        scheduledSlot := by simp }
    obtain ⟨state, reserved, _⟩ := reserveInner_of_admits accounted admits
    exact ⟨state, reserved⟩
  · intro contended paused id bytes state refused
    exact reserveInner_eq_none refused
  · intro contended paused id dataSize state refused
    cases size : Word.add dataSize maxJsonBytes with
    | none =>
        rw [reserveScheduled_of_overflow pool.state contended paused id size] at refused
        cases refused
        rfl
    | some bytes =>
        rw [reserveScheduled_of_fits pool.state contended paused id size] at refused
        exact reserveInner_eq_none refused

/-- Two jobs of the worker and a hand-off: a scheduled job shrinks, the other one ends, and the
headroom is still there. -/
theorem admission_accounting_sample :
    ∃ admission pool,
      Admission.new ⟨8 * maxJsonBytes, by decide⟩ ⟨40, by decide⟩ true = some admission ∧
      Run (fun before action after => step admission before action = some after)
        AdmissionPool.empty
        [.reserveScheduled false false ⟨List.replicate 32 1, rfl⟩ maxJsonBytes,
          .reserveScheduled false false ⟨List.replicate 32 2, rfl⟩ maxJsonBytes,
          .reserve false false ⟨List.replicate 32 3, rfl⟩ (4 * maxJsonBytes),
          .shrink 0 7, .drop 1] pool ∧
      (scheduledOf pool.live).length + maxJobs ≤ 40 := by
  have built : ∃ admission,
      Admission.new ⟨8 * maxJsonBytes, by decide⟩ ⟨40, by decide⟩ true = some admission := ⟨_, rfl⟩
  obtain ⟨admission, built⟩ := built
  obtain ⟨pool, run, _, _, headroom, _⟩ := admission_accounting built
    [.reserveScheduled false false ⟨List.replicate 32 1, rfl⟩ maxJsonBytes,
      .reserveScheduled false false ⟨List.replicate 32 2, rfl⟩ maxJsonBytes,
      .reserve false false ⟨List.replicate 32 3, rfl⟩ (4 * maxJsonBytes),
      .shrink 0 7, .drop 1]
  exact ⟨admission, pool, built, run, (headroom rfl).1⟩

end ArIoGateway
