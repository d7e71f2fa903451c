import ArIoGateway.SharedFlights

/-!
# Single flight

What every interleaving of the callers keeps: the counts are exact, a key has at most one future
that lives, and demands know the callers of the foreground.
-/

namespace ArIoGateway
variable {K V : Type}

theorem FlightTable.depth_le (table : FlightTable) : table.depth ≤ 2 := by
  cases table <;> decide

theorem FlightTable.depth_of_starts {upper lower : FlightTable} (starts : upper.starts lower) :
    lower.depth < upper.depth := by
  cases upper <;> cases lower <;> simp_all [FlightTable.starts, FlightTable.depth]

namespace CallPhase

/-- Whether a caller has a handle of a flight's future. -/
def holds (flight : Nat) : CallPhase V → Bool
  | .upgraded _ other | .joined _ other | .registered other _ | .waiting other _ => other == flight
  | _ => false

/-- Whether a caller has a reference of a flight's demand. -/
def keeps (flight : Nat) : CallPhase V → Bool
  | .joined _ other | .registered other _ | .waiting other _ | .leaving other _ _ => other == flight
  | _ => false

/-- Whether a caller still keeps the demand in whose scope it runs. -/
def within (flight : Nat) : CallPhase V → Bool
  | .polled context | .locked context | .upgraded context _ | .missing context
  | .joined context _ => context.parent == some flight
  | _ => false

/-- Whether a caller of the foreground is interested in a flight. -/
def wants (flight : Nat) : CallPhase V → Bool
  | .waiting other foreground | .leaving other foreground _ => foreground && other == flight
  | _ => false

/-- Whether a caller has the lock of its table. -/
def locks : CallPhase V → Bool
  | .locked _ | .upgraded _ _ | .missing _ => true
  | _ => false

/-- Whether a caller found no flight of its key. -/
def isMissing : CallPhase V → Bool
  | .missing _ => true
  | _ => false

/-- Whether a caller joined a flight, also when it has ended. -/
def refers (flight : Nat) : CallPhase V → Bool
  | .upgraded _ other | .joined _ other | .registered other _ | .waiting other _
  | .leaving other _ _ => other == flight
  | .ended value => value.any fun result => result.1 == flight
  | _ => false

/-- The value that a caller received. -/
def received : CallPhase V → Option (Nat × V)
  | .leaving flight _ value => value.map (flight, ·)
  | .ended value => value
  | _ => none

theorem refers_of_keeps {phase : CallPhase V} {flight : Nat} (kept : phase.keeps flight) :
    phase.refers flight := by
  cases phase <;> simp_all [keeps, refers]

theorem keeps_of_wants {phase : CallPhase V} {flight : Nat} (wanted : phase.wants flight) :
    phase.keeps flight := by
  cases phase <;> simp_all [keeps, wants]

theorem keeps_or_locks {phase : CallPhase V} {flight : Nat} (held : phase.holds flight) :
    phase.keeps flight ∨ phase.locks := by
  cases phase <;> simp_all [holds, keeps, locks]

theorem refers_of_holds {phase : CallPhase V} {flight : Nat} (held : phase.holds flight) :
    phase.refers flight := by
  cases phase <;> simp_all [holds, refers]

theorem locks_of_missing {phase : CallPhase V} (missing : phase.isMissing) : phase.locks := by
  cases phase <;> simp_all [isMissing, locks]

theorem refers_of_received {phase : CallPhase V} {flight : Nat} {value : V}
    (gets : phase.received = some (flight, value)) : phase.refers flight := by
  cases phase with
  | leaving other foreground result =>
      obtain ⟨_, _, same⟩ := Option.map_eq_some_iff.mp gets
      simp_all [refers]
  | ended result =>
      obtain rfl : result = some (flight, value) := gets
      simp [refers]
  | _ => cases gets

end CallPhase

namespace FlightState

variable (state : FlightState K V) (flight other : Nat)

@[simp] theorem modify_flight (change : Flight K V → Flight K V) :
    (state.modify flight change).flight other =
      if other = flight then change (state.flight other) else state.flight other := by
  by_cases same : other = flight
  · subst same
    simp [modify]
  · simp [modify, same]

@[simp] theorem modify_table (change : Flight K V → Flight K V) :
    (state.modify flight change).table = state.table := rfl

@[simp] theorem modify_locked (change : Flight K V → Flight K V) :
    (state.modify flight change).locked = state.locked := rfl

@[simp] theorem modify_count (change : Flight K V → Flight K V) :
    (state.modify flight change).count = state.count := rfl

@[simp] theorem modify_inherited (change : Flight K V → Flight K V) :
    (state.modify flight change).inherited = state.inherited := rfl

@[simp] theorem setLock_flight (table : FlightTable) (held : Bool) :
    (state.setLock table held).flight = state.flight := rfl

@[simp] theorem setLock_locked (table other : FlightTable) (held : Bool) :
    (state.setLock table held).locked other = if other = table then held else state.locked other := by
  by_cases same : other = table
  · subst same
    simp [setLock]
  · simp [setLock, same]

@[simp] theorem setLock_table (table : FlightTable) (held : Bool) :
    (state.setLock table held).table = state.table := rfl

@[simp] theorem setLock_count (table : FlightTable) (held : Bool) :
    (state.setLock table held).count = state.count := rfl

@[simp] theorem setLock_inherited (table : FlightTable) (held : Bool) :
    (state.setLock table held).inherited = state.inherited := rfl

end FlightState

variable [DecidableEq K]

namespace FlightState

variable (state : FlightState K V) (place : FlightTable × K) (stale : Nat → Bool)

@[simp] theorem insert_flight (flight : Nat) :
    (state.insert place stale).flight flight =
      if flight = state.count then .launched place else state.flight flight := by
  by_cases same : flight = state.count
  · subst same
    simp [insert]
  · simp [insert, same]

@[simp] theorem insert_table :
    (state.insert place stale).table = retainAndInsert state place stale := rfl

@[simp] theorem insert_locked : (state.insert place stale).locked = state.locked := rfl

@[simp] theorem insert_count : (state.insert place stale).count = state.count + 1 := rfl

@[simp] theorem insert_inherited : (state.insert place stale).inherited = state.inherited := rfl

end FlightState

attribute [elab_as_elim] callStep.fun_cases_unfolding

/-- A step of a caller changes the counts of a flight by what the caller itself counts for. -/
theorem callStep_balance {state after : FlightState K V} {place : FlightTable × K}
    {phase later : CallPhase V} {move : CallMove V}
    (taken : callStep state place phase move = some (after, later)) (flight : Nat)
    (unborn : state.count ≤ flight → (state.flight flight).handles = 0 ∧
      (state.flight flight).references = 0 ∧ (state.flight flight).foreground = 0)
    (handles : (phase.holds flight).toNat ≤ (state.flight flight).handles)
    (references : (phase.keeps flight).toNat + (phase.within flight).toNat +
      (state.flight flight).working.toNat ≤ (state.flight flight).references)
    (foreground : (phase.wants flight).toNat ≤ (state.flight flight).foreground) :
    (after.flight flight).handles + (phase.holds flight).toNat =
        (state.flight flight).handles + (later.holds flight).toNat ∧
      (after.flight flight).references + ((phase.keeps flight).toNat +
          (phase.within flight).toNat + (state.flight flight).working.toNat) =
        (state.flight flight).references + ((later.keeps flight).toNat +
          (later.within flight).toNat + (after.flight flight).working.toNat) ∧
      (after.flight flight).foreground + (phase.wants flight).toNat =
        (state.flight flight).foreground + (later.wants flight).toNat := by
  revert taken handles references foreground
  fun_cases callStep state place phase move
  all_goals intro taken handles references foreground
  all_goals cases taken
  all_goals
    simp only [CallPhase.holds, CallPhase.keeps, CallPhase.within, CallPhase.wants,
      FlightState.modify_flight, FlightState.setLock_flight, FlightState.insert_flight] at *
  all_goals
    grind [Bool.toNat, Flight.retain, Flight.release, Flight.upgrade, Flight.dropHandle,
      Flight.settle, Flight.enter, Flight.exit, Flight.working, Outcome.isRunning,
      FlightState.Alive, addParent, Flight.launched]

/-- The lock of a table is held by one caller, or free. -/
theorem callStep_locked {state after : FlightState K V} {place : FlightTable × K}
    {phase later : CallPhase V} {move : CallMove V}
    (taken : callStep state place phase move = some (after, later)) (table : FlightTable)
    (held : (place.1 == table && phase.locks).toNat ≤ (state.locked table).toNat) :
    (after.locked table).toNat + (place.1 == table && phase.locks).toNat =
      (state.locked table).toNat + (place.1 == table && later.locks).toNat := by
  revert taken held
  fun_cases callStep state place phase move
  all_goals intro taken held
  all_goals cases taken
  all_goals
    simp only [CallPhase.locks, FlightState.modify_locked, FlightState.setLock_locked,
      FlightState.insert_locked] at *
  all_goals grind [Bool.toNat]

/-- What a step of a caller may change about a flight. -/
theorem callStep_flight {state after : FlightState K V} {place : FlightTable × K}
    {phase later : CallPhase V} {move : CallMove V}
    (taken : callStep state place phase move = some (after, later)) (flight : Nat) :
    (flight < state.count → (after.flight flight).place = (state.flight flight).place ∧
      ∀ value, (state.flight flight).outcome = .done value →
        (after.flight flight).outcome = .done value) ∧
      (after.Alive flight → state.Alive flight ∨
        flight = state.count ∧ after.count = state.count + 1 ∧ phase.isMissing ∧
          (after.flight flight).place = place) ∧
      (∀ parent ∈ (after.flight flight).parents, parent ∈ (state.flight flight).parents ∨
        phase.holds flight ∧ phase.within parent) := by
  revert taken
  fun_cases callStep state place phase move
  all_goals intro taken
  all_goals cases taken
  all_goals
    simp only [CallPhase.holds, CallPhase.within, CallPhase.isMissing,
      FlightState.modify_flight, FlightState.setLock_flight, FlightState.insert_flight,
      FlightState.setLock_count, FlightState.insert_count, FlightState.Alive] at *
  all_goals
    grind [Flight.retain, Flight.release, Flight.upgrade, Flight.dropHandle,
      Flight.settle, Flight.enter, Flight.exit, Flight.working, Outcome.isRunning, addParent,
      Flight.launched]

/-- What a step of a caller may change about the tables. -/
theorem callStep_table {state after : FlightState K V} {place : FlightTable × K}
    {phase later : CallPhase V} {move : CallMove V}
    (taken : callStep state place phase move = some (after, later)) :
    after.inherited = state.inherited ∧
      (after.count = state.count ∧ after.table = state.table ∨
        phase.isMissing ∧ after.count = state.count + 1 ∧ later.holds state.count ∧
          ∃ stale, after.table = retainAndInsert state place stale) := by
  revert taken
  fun_cases callStep state place phase move
  all_goals intro taken
  all_goals cases taken
  all_goals
    simp [CallPhase.isMissing, CallPhase.holds]

/-- The flight that a caller refers to after a step is the one it referred to, a live one that its
table lists, or a new one. -/
theorem callStep_refers {state after : FlightState K V} {place : FlightTable × K}
    {phase later : CallPhase V} {move : CallMove V}
    (taken : callStep state place phase move = some (after, later)) (flight : Nat)
    (refers : later.refers flight) :
    phase.refers flight ∨ state.table place = some flight ∧ state.Alive flight ∨
      flight = state.count ∧ after.count = state.count + 1 ∧
        after.flight flight = .launched place := by
  revert taken refers
  fun_cases callStep state place phase move
  all_goals intro taken refers
  all_goals cases taken
  all_goals
    simp_all [CallPhase.refers]
  all_goals grind [cases Option]

/-- A caller that joined a flight stays with it until it ends. -/
theorem callStep_keeps {state after : FlightState K V} {place : FlightTable × K}
    {phase later : CallPhase V} {move : CallMove V}
    (taken : callStep state place phase move = some (after, later)) (flight : Nat)
    (keeps : phase.keeps flight) :
    later.keeps flight ∨ later = .ended none ∨ ∃ value, later = .ended (some (flight, value)) := by
  revert taken keeps
  fun_cases callStep state place phase move
  all_goals intro taken keeps
  all_goals cases taken
  all_goals
    simp_all [CallPhase.keeps]
  all_goals grind [cases Option]

theorem callStep_within {state after : FlightState K V} {place : FlightTable × K}
    {phase later : CallPhase V} {move : CallMove V}
    (taken : callStep state place phase move = some (after, later)) (parent : Nat)
    (within : later.within parent) :
    phase.within parent ∨
      state.inScope parent ∧ (state.flight parent).place.1.starts place.1 := by
  revert taken within
  fun_cases callStep state place phase move
  all_goals intro taken within
  all_goals cases taken
  all_goals
    simp_all [CallPhase.within]

theorem callStep_received {state after : FlightState K V} {place : FlightTable × K}
    {phase later : CallPhase V} {move : CallMove V}
    (taken : callStep state place phase move = some (after, later)) (flight : Nat) (value : V)
    (received : later.received = some (flight, value)) :
    phase.received = some (flight, value) ∨
      (after.flight flight).outcome = .done value := by
  revert taken received
  fun_cases callStep state place phase move
  all_goals intro taken received
  all_goals cases taken
  all_goals
    simp_all [CallPhase.received, Flight.dropHandle]

/-- A caller that finds no flight of its key either saw none that lives, or has just dropped a
handle of one whose demand is gone. -/
theorem callStep_missing {state after : FlightState K V} {place : FlightTable × K}
    {phase later : CallPhase V} {move : CallMove V}
    (taken : callStep state place phase move = some (after, later)) (missing : later.isMissing) :
    after = state ∧ (∀ flight, state.table place = some flight → ¬ state.Alive flight) ∨
      ∃ flight, phase.holds flight ∧ (state.flight flight).references = 0 ∧
        after = state.modify flight Flight.dropHandle := by
  revert taken missing
  fun_cases callStep state place phase move
  all_goals intro taken missing
  all_goals cases taken
  all_goals
    simp_all [CallPhase.isMissing, CallPhase.holds]

/-- What holds of a caller among the flights. -/
structure Caller.Fits (state : FlightState K V) (caller : Caller K V) : Prop where
  refers : ∀ flight, caller.phase.refers flight →
    flight < state.count ∧ (state.flight flight).place = caller.place
  within : ∀ flight, caller.phase.within flight →
    flight < state.count ∧ (state.flight flight).place.1.starts caller.place.1
  missing : caller.phase.isMissing → ∀ flight, (state.flight flight).place = caller.place →
    ¬ state.Alive flight
  received : ∀ flight value, caller.phase.received = some (flight, value) →
    (state.flight flight).outcome = .done value

namespace FlightWorld

/-- Every count is what the callers have, and the tables list the futures that live. -/
structure Sound (world : FlightWorld K V) : Prop where
  unborn : ∀ flight, world.state.count ≤ flight →
    (world.state.flight flight).handles = 0 ∧ (world.state.flight flight).references = 0 ∧
      (world.state.flight flight).foreground = 0 ∧ (world.state.flight flight).parents = []
  handles : ∀ flight, (world.state.flight flight).handles =
    world.callers.countP fun caller => caller.phase.holds flight
  references : ∀ flight, (world.state.flight flight).references =
    (world.callers.countP fun caller => caller.phase.keeps flight) +
      (world.callers.countP fun caller => caller.phase.within flight) +
      (world.state.flight flight).working.toNat + world.state.inherited.count flight
  foreground : ∀ flight, (world.state.flight flight).foreground =
    world.callers.countP fun caller => caller.phase.wants flight
  locked : ∀ table, (world.state.locked table).toNat =
    world.callers.countP fun caller => caller.place.1 == table && caller.phase.locks
  alive : ∀ flight, world.state.Alive flight →
    world.state.table (world.state.flight flight).place = some flight
  listed : ∀ place flight, world.state.table place = some flight →
    flight < world.state.count ∧ (world.state.flight flight).place = place
  parents : ∀ flight, ∀ parent ∈ (world.state.flight flight).parents,
    parent < world.state.count ∧
      (world.state.flight parent).place.1.starts (world.state.flight flight).place.1
  fits : ∀ (index : Nat) (caller : Caller K V), world.callers[index]? = some caller →
    caller.Fits world.state

variable {world : FlightWorld K V}

omit [DecidableEq K] in
theorem sound_empty [Inhabited K] : Sound (empty : FlightWorld K V) := by
  constructor <;> simp [empty, Flight.working, FlightState.Alive]

omit [DecidableEq K] in
theorem Sound.call (sound : Sound world) (place : FlightTable × K) :
    Sound { world with callers := world.callers ++ [⟨place, .created⟩] } := by
  refine
    { sound with
      handles := ?_, references := ?_, foreground := ?_, locked := ?_, fits := ?_ }
  · simpa [CallPhase.holds] using sound.handles
  · simpa [CallPhase.keeps, CallPhase.within] using sound.references
  · simpa [CallPhase.wants] using sound.foreground
  · simpa [CallPhase.locks] using sound.locked
  · intro index caller found
    rcases List.mem_append.mp (List.mem_of_getElem? found) with earlier | added
    · obtain ⟨index, found⟩ := List.mem_iff_getElem?.mp earlier
      exact sound.fits index caller found
    · obtain rfl := List.mem_singleton.mp added
      constructor <;>
        simp [CallPhase.refers, CallPhase.within, CallPhase.isMissing, CallPhase.received]

omit [DecidableEq K] in
theorem Sound.inScope_lt (sound : Sound world) {flight : Nat}
    (inScope : world.state.inScope flight) : flight < world.state.count := by
  by_contra outside
  obtain ⟨handles, references, _⟩ := sound.unborn flight (Nat.le_of_not_lt outside)
  have counts := sound.references flight
  rw [references] at counts
  have unlisted : flight ∉ world.state.inherited := List.count_eq_zero.mp (by omega)
  simp [FlightState.inScope, Flight.working, handles, unlisted] at inScope

omit [DecidableEq K] in
theorem Sound.alive_lt (sound : Sound world) {flight : Nat} (alive : world.state.Alive flight) :
    flight < world.state.count := by
  by_contra outside
  exact alive (sound.unborn flight (Nat.le_of_not_lt outside)).1

omit [DecidableEq K] in
/-- Only one caller has the lock of a table. -/
theorem Sound.locks_unique (sound : Sound world) {index other : Nat} {caller rival : Caller K V}
    (found : world.callers[index]? = some caller) (rivalFound : world.callers[other]? = some rival)
    (locks : caller.phase.locks) (rivalLocks : rival.phase.locks)
    (same : caller.place.1 = rival.place.1) : index = other := by
  by_contra differ
  have two : 2 ≤ world.callers.countP fun other =>
      other.place.1 == caller.place.1 && other.phase.locks :=
    List.two_le_countP found rivalFound differ (by simpa using locks)
      (by simpa [same] using rivalLocks)
  have one := sound.locked caller.place.1
  have bit := Bool.toNat_le (world.state.locked caller.place.1)
  omega

omit [DecidableEq K] in
/-- Where a caller drops a handle because the demand is gone, no other handle was left. -/
theorem Sound.handles_of_stale (sound : Sound world) {index flight : Nat} {caller : Caller K V}
    (found : world.callers[index]? = some caller) (holds : caller.phase.holds flight)
    (gone : (world.state.flight flight).references = 0) :
    (world.state.flight flight).handles ≤ 1 := by
  have counts := sound.references flight
  have place := ((sound.fits index caller found).refers flight
    (CallPhase.refers_of_holds holds)).2
  -- A holder keeps the demand too, unless it is inside the locked section of this table.
  have covered : ∀ rival ∈ world.callers, rival.phase.holds flight →
      rival.phase.keeps flight ∨
        (rival.place.1 == caller.place.1 && rival.phase.locks) := by
    intro rival member rivalHolds
    obtain ⟨other, rivalFound⟩ := List.mem_iff_getElem?.mp member
    have rivalPlace := ((sound.fits other rival rivalFound).refers flight
      (CallPhase.refers_of_holds rivalHolds)).2
    rcases CallPhase.keeps_or_locks rivalHolds with keeps | locks
    · exact .inl keeps
    · exact .inr (by simp [← rivalPlace, ← place, locks])
  have holders := List.countP_le_add covered
  have one := sound.locked caller.place.1
  have bit := Bool.toNat_le (world.state.locked caller.place.1)
  have total := sound.handles flight
  omega

section Move

variable {index : Nat} {caller : Caller K V} {after : FlightState K V} {later : CallPhase V}
  {action : CallMove V}

theorem Sound.count_le
    (taken : callStep world.state caller.place caller.phase action = some (after, later)) :
    world.state.count ≤ after.count := by
  obtain ⟨_, ⟨same, _⟩ | ⟨_, more, _⟩⟩ := callStep_table taken <;> omega

/-- The caller that moves still fits. -/
theorem Sound.fits_mover (sound : Sound world) (found : world.callers[index]? = some caller)
    (taken : callStep world.state caller.place caller.phase action = some (after, later)) :
    Caller.Fits after { caller with phase := later } := by
  have fits := sound.fits index caller found
  have grows := Sound.count_le taken
  have kept : ∀ flight, flight < world.state.count →
      (after.flight flight).place = (world.state.flight flight).place := fun flight inside =>
    ((callStep_flight taken flight).1 inside).1
  constructor
  · intro flight refers
    rcases callStep_refers taken flight refers with earlier | ⟨listed, _⟩ | ⟨rfl, more, launched⟩
    · obtain ⟨inside, place⟩ := fits.refers flight earlier
      exact ⟨by omega, (kept flight inside).trans place⟩
    · obtain ⟨inside, place⟩ := sound.listed _ flight listed
      exact ⟨by omega, (kept flight inside).trans place⟩
    · exact ⟨by omega, by rw [launched]; rfl⟩
  · intro parent within
    rcases callStep_within taken parent within with earlier | ⟨inScope, starts⟩
    · obtain ⟨inside, starts⟩ := fits.within parent earlier
      exact ⟨by omega, by rwa [kept parent inside]⟩
    · have inside := sound.inScope_lt inScope
      exact ⟨by omega, by rwa [kept parent inside]⟩
  · intro missing flight place alive
    rcases callStep_missing taken missing with ⟨rfl, dead⟩ | ⟨stale, holds, gone, rfl⟩
    · exact dead flight (place ▸ sound.alive flight alive) alive
    · have stalePlace := (fits.refers stale (CallPhase.refers_of_holds holds)).2
      have last := sound.handles_of_stale found holds gone
      have staleAlive : world.state.Alive stale := by
        have counted := List.toNat_le_countP (fun caller => caller.phase.holds stale) found
        have total := sound.handles stale
        simp only [holds, Bool.toNat_true] at counted
        unfold FlightState.Alive
        omega
      by_cases same : flight = stale
      · subst same
        simp only [FlightState.Alive, FlightState.modify_flight, if_true, Flight.dropHandle]
          at alive
        omega
      · simp only [FlightState.Alive, FlightState.modify_flight, if_neg same] at alive place
        have listed := sound.alive flight alive
        have staleListed := sound.alive stale staleAlive
        rw [place] at listed
        rw [stalePlace, listed] at staleListed
        exact same (Option.some.inj staleListed)
  · intro flight value received
    rcases callStep_received taken flight value received with earlier | done
    · have refers := CallPhase.refers_of_received earlier
      exact ((callStep_flight taken flight).1 (fits.refers flight refers).1).2 value
        (fits.received flight value earlier)
    · exact done

/-- The callers that do not move still fit. -/
theorem Sound.fits_rest (sound : Sound world) (found : world.callers[index]? = some caller)
    (taken : callStep world.state caller.place caller.phase action = some (after, later))
    {other : Nat} {rival : Caller K V} (differs : other ≠ index)
    (rivalFound : world.callers[other]? = some rival) : Caller.Fits after rival := by
  have fits := sound.fits other rival rivalFound
  have grows := Sound.count_le taken
  have kept : ∀ flight, flight < world.state.count →
      (after.flight flight).place = (world.state.flight flight).place := fun flight inside =>
    ((callStep_flight taken flight).1 inside).1
  constructor
  · intro flight refers
    obtain ⟨inside, place⟩ := fits.refers flight refers
    exact ⟨by omega, (kept flight inside).trans place⟩
  · intro parent within
    obtain ⟨inside, starts⟩ := fits.within parent within
    exact ⟨by omega, by rwa [kept parent inside]⟩
  · intro missing flight place alive
    rcases (callStep_flight taken flight).2.1 alive with earlier | ⟨rfl, _, moverMissing, newPlace⟩
    · have inside := sound.alive_lt earlier
      exact fits.missing missing flight ((kept flight inside).symm.trans place) earlier
    · refine differs (sound.locks_unique rivalFound found ?_ ?_ ?_)
      · exact CallPhase.locks_of_missing missing
      · exact CallPhase.locks_of_missing moverMissing
      · rw [← place, newPlace]
  · intro flight value received
    have refers := CallPhase.refers_of_received received
    exact ((callStep_flight taken flight).1 (fits.refers flight refers).1).2 value
      (fits.received flight value received)

/-- The counts of one flight after the step. -/
theorem Sound.balance (sound : Sound world) (found : world.callers[index]? = some caller)
    (taken : callStep world.state caller.place caller.phase action = some (after, later))
    (flight : Nat) :
    (after.flight flight).handles + (caller.phase.holds flight).toNat =
        (world.state.flight flight).handles + (later.holds flight).toNat ∧
      (after.flight flight).references + ((caller.phase.keeps flight).toNat +
          (caller.phase.within flight).toNat + (world.state.flight flight).working.toNat) =
        (world.state.flight flight).references + ((later.keeps flight).toNat +
          (later.within flight).toNat + (after.flight flight).working.toNat) ∧
      (after.flight flight).foreground + (caller.phase.wants flight).toNat =
        (world.state.flight flight).foreground + (later.wants flight).toNat := by
  have holders := List.toNat_le_countP (fun caller => caller.phase.holds flight) found
  have keepers := List.toNat_le_countP (fun caller => caller.phase.keeps flight) found
  have insiders := List.toNat_le_countP (fun caller => caller.phase.within flight) found
  have wanting := List.toNat_le_countP (fun caller => caller.phase.wants flight) found
  have handles := sound.handles flight
  have references := sound.references flight
  have foreground := sound.foreground flight
  refine callStep_balance taken flight (fun outside => ?_) (by omega) (by omega) (by omega)
  obtain ⟨noHandles, noReferences, noForeground, _⟩ := sound.unborn flight outside
  exact ⟨noHandles, noReferences, noForeground⟩

/-- A table lists the flights that live, and new flights under their own key. -/
theorem Sound.alive_after (sound : Sound world) (found : world.callers[index]? = some caller)
    (taken : callStep world.state caller.place caller.phase action = some (after, later))
    (flight : Nat) (alive : after.Alive flight) :
    after.table (after.flight flight).place = some flight := by
  have fits := sound.fits index caller found
  have frame := callStep_flight taken flight
  obtain ⟨_, ⟨sameCount, sameTable⟩ | ⟨missing, more, _, stale, table⟩⟩ := callStep_table taken
  · rcases frame.2.1 alive with earlier | ⟨_, more, _⟩
    · have inside := sound.alive_lt earlier
      rw [sameTable, (frame.1 inside).1]
      exact sound.alive flight earlier
    · omega
  · rw [table]
    rcases frame.2.1 alive with earlier | ⟨rfl, _, _, place⟩
    · have inside := sound.alive_lt earlier
      have other : (world.state.flight flight).place ≠ caller.place := fun same =>
        fits.missing missing flight same earlier
      have listed := sound.alive flight earlier
      rw [(frame.1 inside).1, retainAndInsert, Function.update_of_ne other]
      split
      · simp [listed, earlier]
      · exact listed
    · rw [place, retainAndInsert, Function.update_self]

/-- What a table lists is a flight of that key. -/
theorem Sound.listed_after (sound : Sound world) (found : world.callers[index]? = some caller)
    (taken : callStep world.state caller.place caller.phase action = some (after, later))
    (place : FlightTable × K) (flight : Nat) (listed : after.table place = some flight) :
    flight < after.count ∧ (after.flight flight).place = place := by
  have mover := sound.fits_mover found taken
  have grows := Sound.count_le taken
  have earlier (before : world.state.table place = some flight) :
      flight < after.count ∧ (after.flight flight).place = place := by
    obtain ⟨inside, same⟩ := sound.listed place flight before
    exact ⟨by omega, (((callStep_flight taken flight).1 inside).1).trans same⟩
  obtain ⟨_, ⟨_, sameTable⟩ | ⟨_, _, holds, stale, table⟩⟩ := callStep_table taken
  · exact earlier (sameTable ▸ listed)
  · rw [table, retainAndInsert] at listed
    by_cases new : place = caller.place
    · subst new
      rw [Function.update_self] at listed
      obtain rfl := Option.some.inj listed
      exact mover.refers _ (CallPhase.refers_of_holds holds)
    · rw [Function.update_of_ne new] at listed
      split at listed
      · exact earlier (Option.filter_eq_some_iff.mp listed).1
      · exact earlier listed

/-- A demand's parents are demands of flights that start such work. -/
theorem Sound.parents_after (sound : Sound world) (found : world.callers[index]? = some caller)
    (taken : callStep world.state caller.place caller.phase action = some (after, later))
    (flight parent : Nat) (member : parent ∈ (after.flight flight).parents) :
    parent < after.count ∧
      (after.flight parent).place.1.starts (after.flight flight).place.1 := by
  have fits := sound.fits index caller found
  have grows := Sound.count_le taken
  have kept : ∀ flight, flight < world.state.count →
      (after.flight flight).place = (world.state.flight flight).place := fun flight inside =>
    ((callStep_flight taken flight).1 inside).1
  rcases (callStep_flight taken flight).2.2 parent member with earlier | ⟨holds, within⟩
  · have inside : flight < world.state.count := by
      by_contra outside
      rw [(sound.unborn flight (Nat.le_of_not_lt outside)).2.2.2] at earlier
      cases earlier
    obtain ⟨parentInside, starts⟩ := sound.parents flight parent earlier
    exact ⟨by omega, by rwa [kept parent parentInside, kept flight inside]⟩
  · obtain ⟨inside, place⟩ := fits.refers flight (CallPhase.refers_of_holds holds)
    obtain ⟨parentInside, starts⟩ := fits.within parent within
    exact ⟨by omega, by rwa [kept parent parentInside, kept flight inside, place]⟩

/-- Nothing counts for a flight that does not exist. -/
theorem Sound.unborn_after (sound : Sound world) (found : world.callers[index]? = some caller)
    (taken : callStep world.state caller.place caller.phase action = some (after, later))
    (flight : Nat) (outside : after.count ≤ flight) :
    (after.flight flight).handles = 0 ∧ (after.flight flight).references = 0 ∧
      (after.flight flight).foreground = 0 ∧ (after.flight flight).parents = [] := by
  have mover := sound.fits_mover found taken
  have grows := Sound.count_le taken
  obtain ⟨noHandles, noReferences, noForeground, noParents⟩ :=
    sound.unborn flight (by omega)
  obtain ⟨handles, references, foreground⟩ := sound.balance found taken flight
  have noHolds : later.holds flight = false := by
    by_contra holds
    have inside := (mover.refers flight (CallPhase.refers_of_holds (by simpa using holds))).1
    omega
  have noKeeps : later.keeps flight = false := by
    by_contra keeps
    have inside := (mover.refers flight (CallPhase.refers_of_keeps (by simpa using keeps))).1
    omega
  have noWithin : later.within flight = false := by
    by_contra within
    have inside := (mover.within flight (by simpa using within)).1
    omega
  have noWants : later.wants flight = false := by
    by_contra wants
    have inside := (mover.refers flight (CallPhase.refers_of_keeps
      (CallPhase.keeps_of_wants (by simpa using wants)))).1
    omega
  rw [noHolds, noHandles, Bool.toNat_false] at handles
  have noWorking : (after.flight flight).working = false := by
    have gone : (after.flight flight).handles = 0 := by omega
    simp [Flight.working, gone]
  rw [noKeeps, noWithin, noReferences, noWorking, Bool.toNat_false] at references
  rw [noWants, noForeground, Bool.toNat_false] at foreground
  refine ⟨by omega, by omega, by omega, ?_⟩
  refine List.eq_nil_iff_forall_not_mem.mpr fun parent member => ?_
  rcases (callStep_flight taken flight).2.2 parent member with earlier | ⟨holds, _⟩
  · rw [noParents] at earlier
    cases earlier
  · have inside := ((sound.fits index caller found).refers flight
      (CallPhase.refers_of_holds holds)).1
    omega

theorem Sound.advance (sound : Sound world) (found : world.callers[index]? = some caller)
    (taken : callStep world.state caller.place caller.phase action = some (after, later)) :
    Sound ⟨after, world.callers.set index { caller with phase := later }⟩ := by
  have mover := sound.fits_mover found taken
  obtain ⟨inherited, _⟩ := callStep_table taken
  constructor
  · exact sound.unborn_after found taken
  · intro flight
    have set := List.countP_set_add (fun caller => caller.phase.holds flight) found
      { caller with phase := later }
    have balance := (sound.balance found taken flight).1
    have total := sound.handles flight
    simp only at set ⊢
    omega
  · intro flight
    have setKeeps := List.countP_set_add (fun caller => caller.phase.keeps flight) found
      { caller with phase := later }
    have setWithin := List.countP_set_add (fun caller => caller.phase.within flight) found
      { caller with phase := later }
    have balance := (sound.balance found taken flight).2.1
    have total := sound.references flight
    simp only [inherited] at setKeeps setWithin ⊢
    omega
  · intro flight
    have set := List.countP_set_add (fun caller => caller.phase.wants flight) found
      { caller with phase := later }
    have balance := (sound.balance found taken flight).2.2
    have total := sound.foreground flight
    simp only at set ⊢
    omega
  · intro table
    have set := List.countP_set_add
      (fun caller => caller.place.1 == table && caller.phase.locks) found
      { caller with phase := later }
    have total := sound.locked table
    have held := List.toNat_le_countP
      (fun caller => caller.place.1 == table && caller.phase.locks) found
    have balance := callStep_locked taken table (by omega)
    simp only at set ⊢
    omega
  · exact sound.alive_after found taken
  · exact sound.listed_after found taken
  · exact sound.parents_after found taken
  · intro other rival rivalFound
    by_cases same : other = index
    · subst same
      rw [List.getElem?_set_self (List.getElem?_eq_some_iff.mp found).1] at rivalFound
      cases rivalFound
      exact mover
    · rw [List.getElem?_set_ne (Ne.symm same)] at rivalFound
      exact sound.fits_rest found taken same rivalFound

end Move

omit [DecidableEq K] in
/-- References of demands that tasks take and drop change nothing else. -/
theorem Sound.recount (sound : Sound world) {state : FlightState K V}
    (same : ∀ flight, state.flight flight =
      { world.state.flight flight with references := (state.flight flight).references })
    (table : state.table = world.state.table) (locked : state.locked = world.state.locked)
    (count : state.count = world.state.count)
    (counts : ∀ flight, (state.flight flight).references + world.state.inherited.count flight =
      (world.state.flight flight).references + state.inherited.count flight)
    (unborn : ∀ flight, state.count ≤ flight → (state.flight flight).references = 0) :
    Sound { world with state := state } := by
  have handles : ∀ flight, (state.flight flight).handles = (world.state.flight flight).handles :=
    fun flight => by simpa using congrArg Flight.handles (same flight)
  have outcome : ∀ flight, (state.flight flight).outcome = (world.state.flight flight).outcome :=
    fun flight => by simpa using congrArg Flight.outcome (same flight)
  have foreground : ∀ flight,
      (state.flight flight).foreground = (world.state.flight flight).foreground :=
    fun flight => by simpa using congrArg Flight.foreground (same flight)
  have parents : ∀ flight, (state.flight flight).parents = (world.state.flight flight).parents :=
    fun flight => by simpa using congrArg Flight.parents (same flight)
  have place : ∀ flight, (state.flight flight).place = (world.state.flight flight).place :=
    fun flight => by simpa using congrArg Flight.place (same flight)
  have alive : ∀ flight, state.Alive flight ↔ world.state.Alive flight := fun flight => by
    rw [FlightState.Alive, handles]
    rfl
  have working : ∀ flight, (state.flight flight).working = (world.state.flight flight).working :=
    fun flight => by rw [Flight.working, handles, outcome, Flight.working]
  constructor
  · intro flight outside
    obtain ⟨noHandles, _, noForeground, noParents⟩ := sound.unborn flight (count ▸ outside)
    exact ⟨(handles flight).trans noHandles, unborn flight outside,
      (foreground flight).trans noForeground, (parents flight).trans noParents⟩
  · exact fun flight => (handles flight).trans (sound.handles flight)
  · intro flight
    have total := sound.references flight
    have moved := counts flight
    simp only [working]
    omega
  · exact fun flight => (foreground flight).trans (sound.foreground flight)
  · exact fun other => by simpa only [locked] using sound.locked other
  · intro flight live
    simp only [table, place]
    exact sound.alive flight ((alive flight).mp live)
  · intro other flight listed
    simp only [count, place]
    exact sound.listed other flight (table ▸ listed)
  · intro flight parent member
    simp only [count, place]
    exact sound.parents flight parent (parents flight ▸ member)
  · intro index caller found
    have fits := sound.fits index caller found
    constructor
    · simpa only [count, place] using fits.refers
    · simpa only [count, place] using fits.within
    · simpa only [alive, place] using fits.missing
    · simpa only [outcome] using fits.received

theorem sound_step (sound : Sound world) {action : FlightAction K V} {after : FlightWorld K V}
    (taken : world.step action = some after) : Sound after := by
  cases action with
  | call place =>
      cases taken
      exact sound.call place
  | move index move =>
      cases found : world.callers[index]? with
      | none => simp [step, found] at taken
      | some caller =>
          simp only [step, found, Option.map_eq_some_iff, Prod.exists] at taken
          obtain ⟨state, later, taken, rfl⟩ := taken
          exact sound.advance found taken
  | inherit flight =>
      simp only [step] at taken
      split at taken
      · next inScope =>
          cases taken
          have inside := sound.inScope_lt inScope
          refine sound.recount (fun other => ?_) rfl rfl rfl (fun other => ?_)
            (fun other outside => ?_)
          · simp only [FlightState.modify_flight]
            split <;> rfl
          · simp only [FlightState.modify_flight]
            by_cases same : other = flight
            · subst same
              simp [Flight.retain]
              omega
            · simp [same, Ne.symm same]
          · have differs : other ≠ flight := by
              rintro rfl
              exact absurd outside (Nat.not_le.mpr inside)
            simp only [FlightState.modify_flight, if_neg differs]
            exact (sound.unborn other outside).2.1
      · cases taken
  | endTask flight =>
      simp only [step] at taken
      split at taken
      · next held =>
          cases taken
          have held : flight ∈ world.state.inherited := by simpa using held
          have positive := List.count_pos_iff.mpr held
          have total := sound.references flight
          refine sound.recount (fun other => ?_) rfl rfl rfl (fun other => ?_)
            (fun other outside => ?_)
          · simp only [FlightState.modify_flight]
            split <;> rfl
          · simp only [FlightState.modify_flight]
            by_cases same : other = flight
            · subst same
              simp [Flight.release]
              omega
            · simp [same]
          · have gone := (sound.unborn other outside).2.1
            simp only [FlightState.modify_flight]
            split
            · simp [Flight.release, gone]
            · exact gone
      · cases taken

/-- Every state that callers can reach is sound. -/
theorem sound_run [Inhabited K] {actions : List (FlightAction K V)}
    (run : Run (fun before action after => step before action = some after) empty actions world) :
    Sound world :=
  run.invariant (fun _ _ _ sound taken => sound_step sound taken) sound_empty

omit [DecidableEq K] in
theorem Sound.noHolder (sound : Sound world) {flight : Nat} :
    world.state.Alive flight ↔ ∃ caller ∈ world.callers, caller.phase.holds flight := by
  rw [FlightState.Alive, sound.handles flight, ← Nat.pos_iff_ne_zero, List.countP_pos_iff]

/-- A future that was dropped stays dropped. -/
theorem dropped_step {action : FlightAction K V} {after : FlightWorld K V}
    (taken : world.step action = some after) {flight : Nat} (inside : flight < world.state.count)
    (dropped : ¬ world.state.Alive flight) :
    flight < after.state.count ∧ ¬ after.state.Alive flight := by
  cases action with
  | call place =>
      cases taken
      exact ⟨inside, dropped⟩
  | move index move =>
      cases found : world.callers[index]? with
      | none => simp [step, found] at taken
      | some caller =>
          simp only [step, found, Option.map_eq_some_iff, Prod.exists] at taken
          obtain ⟨state, later, taken, rfl⟩ := taken
          have grows := Sound.count_le taken
          refine ⟨by simp only; omega, fun alive => ?_⟩
          rcases (callStep_flight taken flight).2.1 alive with earlier | ⟨rfl, _⟩
          · exact dropped earlier
          · exact Nat.lt_irrefl _ inside
  | inherit other =>
      simp only [step] at taken
      split at taken
      · cases taken
        refine ⟨inside, fun alive => dropped ?_⟩
        simp only [FlightState.Alive, FlightState.modify_flight] at alive
        split at alive <;> exact alive
      · cases taken
  | endTask other =>
      simp only [step] at taken
      split at taken
      · cases taken
        refine ⟨inside, fun alive => dropped ?_⟩
        simp only [FlightState.Alive, FlightState.modify_flight] at alive
        split at alive <;> exact alive
      · cases taken

/-- What a caller that joined a flight comes to. -/
def Stays (flight : Nat) (phase : CallPhase V) : Prop :=
  phase.keeps flight ∨ phase = .ended none ∨ ∃ value, phase = .ended (some (flight, value))

theorem callStep_stays {state after : FlightState K V} {place : FlightTable × K}
    {phase later : CallPhase V} {move : CallMove V}
    (taken : callStep state place phase move = some (after, later)) {flight : Nat}
    (stays : Stays flight phase) : Stays flight later := by
  rcases stays with keeps | rfl | ⟨value, rfl⟩
  · exact callStep_keeps taken flight keeps
  · simp [callStep] at taken
  · simp [callStep] at taken

/-- A step leaves a caller with the flight it joined. -/
theorem stays_step {action : FlightAction K V} {after : FlightWorld K V}
    (taken : world.step action = some after) {index flight : Nat} {caller : Caller K V}
    (found : world.callers[index]? = some caller) (stays : Stays flight caller.phase) :
    ∃ later, after.callers[index]? = some later ∧ Stays flight later.phase := by
  cases action with
  | call place =>
      cases taken
      have inside := (List.getElem?_eq_some_iff.mp found).1
      exact ⟨caller, by simp only [List.getElem?_append_left inside, found], stays⟩
  | move other move =>
      cases moverFound : world.callers[other]? with
      | none => simp [step, moverFound] at taken
      | some mover =>
          simp only [step, moverFound, Option.map_eq_some_iff, Prod.exists] at taken
          obtain ⟨state, phase, taken, rfl⟩ := taken
          by_cases same : index = other
          · subst same
            obtain rfl : mover = caller := Option.some.inj (moverFound.symm.trans found)
            have inside := (List.getElem?_eq_some_iff.mp found).1
            exact ⟨_, List.getElem?_set_self inside, callStep_stays taken stays⟩
          · exact ⟨caller, by simp only [List.getElem?_set_ne (Ne.symm same), found], stays⟩
  | inherit other =>
      simp only [step] at taken
      split at taken
      · cases taken
        exact ⟨caller, found, stays⟩
      · cases taken
  | endTask other =>
      simp only [step] at taken
      split at taken
      · cases taken
        exact ⟨caller, found, stays⟩
      · cases taken

theorem stays_run {actions : List (FlightAction K V)} {after : FlightWorld K V}
    (run : Run (fun before action after => step before action = some after) world actions after)
    {index flight : Nat} {caller : Caller K V} (found : world.callers[index]? = some caller)
    (stays : Stays flight caller.phase) :
    ∃ later, after.callers[index]? = some later ∧ Stays flight later.phase := by
  induction run generalizing caller with
  | stop => exact ⟨caller, found, stays⟩
  | next taken _ induction =>
      obtain ⟨later, found, stays⟩ := stays_step taken found stays
      exact induction found stays

theorem dropped_run {actions : List (FlightAction K V)}
    {after : FlightWorld K V}
    (run : Run (fun before action after => step before action = some after) world actions after)
    {flight : Nat} (inside : flight < world.state.count) (dropped : ¬ world.state.Alive flight) :
    ¬ after.state.Alive flight := by
  induction run with
  | stop => exact dropped
  | next taken _ induction =>
      obtain ⟨inside, dropped⟩ := dropped_step taken inside dropped
      exact induction inside dropped

/-- The demands that are reached from a demand through parents that live. -/
inductive Above (state : FlightState K V) : Nat → Nat → Prop
  | here (flight : Nat) : Above state flight flight
  | parent {flight parent other : Nat} :
      parent ∈ (state.flight flight).parents →
      (state.flight parent).references ≠ 0 →
      Above state parent other →
      Above state flight other

theorem anyM_eq_some {α : Type*} {test : α → Option Bool} {found : α → Prop} {values : List α}
    (decides : ∀ value ∈ values, ∃ outcome, test value = some outcome ∧
      (outcome = true ↔ found value)) :
    ∃ outcome, values.anyM test = some outcome ∧
      (outcome = true ↔ ∃ value ∈ values, found value) := by
  induction values with
  | nil => exact ⟨false, rfl, by simp⟩
  | cons value values induction =>
      obtain ⟨head, tested, decided⟩ := decides value List.mem_cons_self
      obtain ⟨tail, rest, restDecided⟩ :=
        induction fun other member => decides other (List.mem_cons_of_mem value member)
      cases head with
      | true => exact ⟨true, by simp [List.anyM, tested], by simp [decided.mp rfl]⟩
      | false =>
          refine ⟨tail, by simp [List.anyM, tested, rest], restDecided.trans ?_⟩
          have absent : ¬ found value := fun holds => by simpa using decided.mpr holds
          simp [absent]

omit [DecidableEq K] in
/-- Calls go down, so that the search ends, and it finds the callers of the foreground. -/
theorem Sound.active_spec (sound : Sound world) (fuel flight : Nat)
    (enough : 2 < fuel + (world.state.flight flight).place.1.depth) :
    ∃ outcome, world.state.active fuel flight = some outcome ∧
      (outcome = true ↔ ∃ above, Above world.state flight above ∧
        ∃ caller ∈ world.callers, caller.phase.wants above) := by
  have counted : ∀ flight, (world.state.flight flight).foreground ≠ 0 ↔
      ∃ caller ∈ world.callers, caller.phase.wants flight := fun flight => by
    rw [sound.foreground flight, ← Nat.pos_iff_ne_zero, List.countP_pos_iff]
  induction fuel generalizing flight with
  | zero =>
      have bounded := FlightTable.depth_le (world.state.flight flight).place.1
      omega
  | succ fuel induction =>
      unfold FlightState.active
      split
      · next foreground =>
          exact ⟨true, rfl, fun _ => ⟨flight, .here flight, (counted flight).mp foreground⟩,
            fun _ => rfl⟩
      · next background =>
          have parents : ∀ parent ∈ (world.state.flight flight).parents.filter
              (fun parent => decide ((world.state.flight parent).references ≠ 0)),
              ∃ outcome, world.state.active fuel parent = some outcome ∧
                (outcome = true ↔ ∃ above, Above world.state parent above ∧
                  ∃ caller ∈ world.callers, caller.phase.wants above) := by
            intro parent member
            have starts := (sound.parents flight parent (List.mem_filter.mp member).1).2
            have deeper := FlightTable.depth_of_starts starts
            exact induction parent (by omega)
          obtain ⟨outcome, evaluates, decides⟩ := anyM_eq_some parents
          refine ⟨outcome, evaluates, decides.trans ⟨?_, ?_⟩⟩
          · rintro ⟨parent, member, above, reaches, wanted⟩
            obtain ⟨listed, lives⟩ := List.mem_filter.mp member
            exact ⟨above, .parent listed (of_decide_eq_true lives) reaches, wanted⟩
          · rintro ⟨above, reaches, wanted⟩
            cases reaches with
            | here => exact (background ((counted flight).mpr wanted)).elim
            | parent listed lives reaches =>
                exact ⟨_, List.mem_filter.mpr ⟨listed, decide_eq_true lives⟩, above, reaches,
                  wanted⟩

end FlightWorld

open FlightWorld in
/-- In every interleaving of callers at most one future of a key lives, a future lives exactly as
long as a caller has it, every caller that completes gets the value of the flight it joined, and a
caller that comes later starts a new flight.  Demands count exactly the callers of the foreground,
and the search through the demands ends and finds them. -/
theorem single_flight [Inhabited K] {actions : List (FlightAction K V)} {world : FlightWorld K V}
    (run : Run (fun before action after => step before action = some after) empty actions world) :
    (∀ flight other, (world.state.flight flight).place = (world.state.flight other).place →
      world.state.Alive flight → world.state.Alive other → flight = other) ∧
    (∀ flight, world.state.Alive flight ↔
      ∃ caller ∈ world.callers, caller.phase.holds flight) ∧
    (∀ caller ∈ world.callers, ∀ flight, caller.phase.refers flight →
      (world.state.flight flight).place = caller.place) ∧
    (∀ caller ∈ world.callers, ∀ flight value, caller.phase = .ended (some (flight, value)) →
      (world.state.flight flight).outcome = .done value) ∧
    (∀ later after, Run (fun before action after => step before action = some after)
      world later after →
      (∀ flight < world.state.count, ¬ world.state.Alive flight → ¬ after.state.Alive flight ∧
        ∀ caller ∈ after.callers, ¬ caller.phase.holds flight) ∧
      (∀ (index : Nat) (caller : Caller K V) (flight : Nat),
        world.callers[index]? = some caller → caller.phase.keeps flight →
        ∃ next : Caller K V, after.callers[index]? = some next ∧ (next.phase.keeps flight ∨
          next.phase = .ended none ∨ ∃ value, next.phase = .ended (some (flight, value)) ∧
            (after.state.flight flight).outcome = .done value))) ∧
    (∀ caller ∈ world.callers, ∀ move state phase,
      callStep world.state caller.place caller.phase move = some (state, phase) →
      ∀ flight, phase.refers flight → caller.phase.refers flight ∨ world.state.Alive flight ∨
        flight = world.state.count ∧ state.flight flight = .launched caller.place) ∧
    (∀ flight, (world.state.flight flight).foreground =
      world.callers.countP fun caller => caller.phase.wants flight) ∧
    (∀ context fuel, 2 < fuel → ∃ outcome,
      world.state.cacheRequested fuel context = some outcome ∧
      (outcome = true ↔ match context.parent with
        | some demand => ∃ above, Above world.state demand above ∧
            ∃ caller ∈ world.callers, caller.phase.wants above
        | none => context.background = false)) := by
  have sound := sound_run run
  refine ⟨?_, fun flight => sound.noHolder, ?_, ?_, ?_, ?_, sound.foreground, ?_⟩
  · intro flight other same alive otherAlive
    have listed := sound.alive flight alive
    rw [same, sound.alive other otherAlive] at listed
    exact (Option.some.inj listed).symm
  · intro caller member flight refers
    obtain ⟨index, found⟩ := List.mem_iff_getElem?.mp member
    exact ((sound.fits index caller found).refers flight refers).2
  · intro caller member flight value ended
    obtain ⟨index, found⟩ := List.mem_iff_getElem?.mp member
    exact (sound.fits index caller found).received flight value (by rw [ended]; rfl)
  · intro later after rest
    have afterSound : Sound after :=
      rest.invariant (fun _ _ _ sound taken => sound_step sound taken) sound
    constructor
    · intro flight inside dropped
      have gone := dropped_run rest inside dropped
      exact ⟨gone, fun caller member holds => gone (afterSound.noHolder.mpr ⟨caller, member, holds⟩)⟩
    · intro index caller flight found keeps
      obtain ⟨next, nextFound, stays⟩ := stays_run rest found (.inl keeps)
      refine ⟨next, nextFound, ?_⟩
      rcases stays with keeps | none | ⟨value, ended⟩
      · exact .inl keeps
      · exact .inr (.inl none)
      · exact .inr (.inr ⟨value, ended,
          (afterSound.fits index next nextFound).received flight value (by rw [ended]; rfl)⟩)
  · intro caller member move state phase taken flight refers
    rcases callStep_refers taken flight refers with earlier | ⟨_, alive⟩ | ⟨new, _, launched⟩
    · exact .inl earlier
    · exact .inr (.inl alive)
    · exact .inr (.inr ⟨new, launched⟩)
  · intro context fuel enough
    unfold FlightState.cacheRequested
    cases context.parent with
    | none => exact ⟨!context.background, rfl, by simp⟩
    | some demand => exact sound.active_spec fuel demand (by omega)

/-- The first of two callers leaves, the second gets the value. -/
theorem single_flight_sample : ∃ world : FlightWorld Nat Nat,
    Run (fun before action after => FlightWorld.step before action = some after) .empty
      [.call (.chunks, 5), .call (.chunks, 5),
        .move 0 (.poll ⟨false, none⟩), .move 0 .acquire, .move 0 .upgradeFuture,
        .move 0 (.launch fun _ => false), .move 0 (.register fun _ => false), .move 0 .count,
        .move 1 (.poll ⟨true, none⟩), .move 1 .acquire, .move 1 .upgradeFuture,
        .move 1 .upgradeDemand, .move 1 (.register fun _ => false), .move 1 .count,
        .move 0 .cancel, .move 0 .leave,
        .move 1 (.finish 7), .move 1 .collect, .move 1 .leave] world ∧
      world.callers = [⟨(.chunks, 5), .ended none⟩, ⟨(.chunks, 5), .ended (some (0, 7))⟩] ∧
      (world.state.flight 0).outcome = .done 7 ∧ (world.state.flight 0).foreground = 0 := by
  have folds : ∃ world : FlightWorld Nat Nat, List.foldlM FlightWorld.step .empty
      [.call (.chunks, 5), .call (.chunks, 5),
        .move 0 (.poll ⟨false, none⟩), .move 0 .acquire, .move 0 .upgradeFuture,
        .move 0 (.launch fun _ => false), .move 0 (.register fun _ => false), .move 0 .count,
        .move 1 (.poll ⟨true, none⟩), .move 1 .acquire, .move 1 .upgradeFuture,
        .move 1 .upgradeDemand, .move 1 (.register fun _ => false), .move 1 .count,
        .move 0 .cancel, .move 0 .leave,
        .move 1 (.finish 7), .move 1 .collect, .move 1 .leave] = some world ∧
      world.callers = [⟨(.chunks, 5), .ended none⟩, ⟨(.chunks, 5), .ended (some (0, 7))⟩] :=
    ⟨_, rfl, rfl⟩
  obtain ⟨world, folds, callers⟩ := folds
  have run := Run.of_foldlM folds
  obtain ⟨_, _, _, values, _, _, foreground, _⟩ := single_flight run
  refine ⟨world, run, callers, ?_, ?_⟩
  · exact values ⟨(.chunks, 5), .ended (some (0, 7))⟩ (by simp [callers]) 0 7 rfl
  · rw [foreground 0, callers]
    rfl

end ArIoGateway
