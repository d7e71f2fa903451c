import ArIoGateway.Foundation.Runs
import Mathlib.Logic.Function.Basic

/-!
# Shared flights

Callers that ask for the same key share one future.  Only callers own the future: the last one to
leave drops it.  Each future carries a demand, which counts the callers of the foreground and
points to the demands of the futures that called it.
-/

namespace ArIoGateway

/-- The tables of flights, one for each kind of work. -/
inductive FlightTable where
  | names
  | content
  | direct
  | chunks
  | proofs
deriving DecidableEq

/-- Which flights the work of a flight starts: content reads a root, and all but names end in
chunk proofs. -/
def FlightTable.starts : FlightTable → FlightTable → Bool
  | .content, .direct => true
  | .content, .proofs => true
  | .direct, .proofs => true
  | .chunks, .proofs => true
  | _, _ => false

/-- How deep the calls below a flight of a table go. -/
def FlightTable.depth : FlightTable → Nat
  | .names => 0
  | .content => 2
  | .direct => 1
  | .chunks => 1
  | .proofs => 0

/-- How far the work of a flight has come. -/
inductive Outcome (V : Type) where
  | running
  | done (value : V)
  | poisoned
deriving DecidableEq

/-- Whether the work has not ended. -/
def Outcome.isRunning {V : Type} : Outcome V → Bool
  | .running => true
  | _ => false

/-- A shared future with its demand.  The future lives as long as it has handles, the demand as
long as it has references. -/
structure Flight (K V : Type) where
  place : FlightTable × K
  outcome : Outcome V
  handles : Nat
  references : Nat
  foreground : Nat
  parents : List Nat

namespace Flight

variable {K V : Type}

/-- A new flight: its caller has the future and the demand, and the work has the demand. -/
def launched (place : FlightTable × K) : Flight K V where
  place := place
  outcome := .running
  handles := 1
  references := 2
  foreground := 0
  parents := []

/-- Whether the work of a flight is there and has not ended. -/
def working (flight : Flight K V) : Bool :=
  decide (flight.handles ≠ 0) && flight.outcome.isRunning

/-- Take one more reference of the demand. -/
def retain (flight : Flight K V) : Flight K V :=
  { flight with references := flight.references + 1 }

/-- Drop one reference of the demand. -/
def release (flight : Flight K V) : Flight K V :=
  { flight with references := flight.references - 1 }

/-- Take one more handle of the future. -/
def upgrade (flight : Flight K V) : Flight K V :=
  { flight with handles := flight.handles + 1 }

/-- Drop one handle of the future.  The last one drops the work, and with it the work's reference
of the demand. -/
def dropHandle (flight : Flight K V) : Flight K V :=
  { flight with
    handles := flight.handles - 1
    references :=
      if flight.handles = 1 ∧ flight.outcome.isRunning then flight.references - 1
      else flight.references }

/-- End the work, which drops the work's reference of the demand. -/
def settle (outcome : Outcome V) (flight : Flight K V) : Flight K V :=
  { flight with
    outcome := outcome
    references := flight.references - 1 }

/-- Count a caller of the foreground. -/
def enter (foreground : Bool) (flight : Flight K V) : Flight K V :=
  { flight with foreground := flight.foreground + foreground.toNat }

/-- End the interest of a caller. -/
def exit (foreground : Bool) (flight : Flight K V) : Flight K V :=
  { flight with
    foreground := flight.foreground - foreground.toNat
    references := flight.references - 1 }

end Flight

/-- The task-local values that a caller reads. -/
structure CallContext where
  background : Bool
  parent : Option Nat
deriving DecidableEq

/-- Where a caller stands in `run`. -/
inductive CallPhase (V : Type) where
  | created
  | polled (context : CallContext)
  | locked (context : CallContext)
  | upgraded (context : CallContext) (flight : Nat)
  | missing (context : CallContext)
  | joined (context : CallContext) (flight : Nat)
  | registered (flight : Nat) (foreground : Bool)
  | waiting (flight : Nat) (foreground : Bool)
  | leaving (flight : Nat) (foreground : Bool) (value : Option V)
  | ended (value : Option (Nat × V))

/-- What the callers share. -/
structure FlightState (K V : Type) where
  table : FlightTable × K → Option Nat
  locked : FlightTable → Bool
  flight : Nat → Flight K V
  count : Nat
  inherited : List Nat

namespace FlightState

variable {K V : Type}

/-- Change one flight. -/
def modify (state : FlightState K V) (flight : Nat) (change : Flight K V → Flight K V) :
    FlightState K V :=
  { state with flight := Function.update state.flight flight (change (state.flight flight)) }

/-- Whether the future of a flight has not been dropped. -/
def Alive (state : FlightState K V) (flight : Nat) : Prop := (state.flight flight).handles ≠ 0

instance (state : FlightState K V) (flight : Nat) : Decidable (state.Alive flight) :=
  inferInstanceAs (Decidable (_ ≠ _))

/-- Whether some code runs in the scope of a flight's demand. -/
def inScope (state : FlightState K V) (flight : Nat) : Bool :=
  (state.flight flight).working || state.inherited.contains flight

def setLock (state : FlightState K V) (table : FlightTable) (held : Bool) : FlightState K V :=
  { state with locked := Function.update state.locked table held }

end FlightState

/-- The steps of one caller. -/
inductive CallMove (V : Type) where
  | poll (context : CallContext)
  | acquire
  | upgradeFuture
  | upgradeDemand
  | launch (stale : Nat → Bool)
  | register (stale : Nat → Bool)
  | count
  | finish (value : V)
  | poison
  | collect
  | cancel
  | leave

variable {K V : Type} [DecidableEq K]

/-- Keep the entries of a table whose futures live, and put a new flight in.  An entry whose future
dies while the table is read may stay. -/
def retainAndInsert (state : FlightState K V) (place : FlightTable × K) (stale : Nat → Bool) :
    FlightTable × K → Option Nat :=
  Function.update
    (fun other =>
      if other.1 = place.1 then
        (state.table other).filter fun flight => decide (state.Alive flight) || stale flight
      else state.table other)
    place (some state.count)

/-- Put a new flight into its table. -/
def FlightState.insert (state : FlightState K V) (place : FlightTable × K) (stale : Nat → Bool) :
    FlightState K V :=
  { state with
    table := retainAndInsert state place stale
    flight := Function.update state.flight state.count (.launched place)
    count := state.count + 1 }

/-- Add a parent to a demand, without the parents that are gone.  A parent that goes while the list
is read may stay. -/
def addParent (state : FlightState K V) (parent : Nat) (stale : Nat → Bool) (flight : Flight K V) :
    Flight K V :=
  let kept := flight.parents.filter fun other =>
    decide ((state.flight other).references ≠ 0) || stale other
  { flight with parents := if kept.contains parent then kept else kept ++ [parent] }

/-- One step of a caller of `run`. -/
def callStep (state : FlightState K V) (place : FlightTable × K) :
    CallPhase V → CallMove V → Option (FlightState K V × CallPhase V)
  | .created, .poll context =>
      match context.parent with
      | none => some (state, .polled context)
      | some parent =>
          if state.inScope parent && (state.flight parent).place.1.starts place.1 then
            some (state.modify parent Flight.retain, .polled context)
          else none
  | .created, .cancel => some (state, .ended none)
  | .polled context, .acquire =>
      if state.locked place.1 then none else some (state.setLock place.1 true, .locked context)
  | .locked context, .upgradeFuture =>
      match state.table place with
      | some flight =>
          if state.Alive flight then
            some (state.modify flight Flight.upgrade, .upgraded context flight)
          else some (state, .missing context)
      | none => some (state, .missing context)
  | .upgraded context flight, .upgradeDemand =>
      if (state.flight flight).references ≠ 0 then
        some ((state.modify flight Flight.retain).setLock place.1 false, .joined context flight)
      else some (state.modify flight Flight.dropHandle, .missing context)
  | .missing context, .launch stale =>
      some ((state.insert place stale).setLock place.1 false, .joined context state.count)
  | .joined context flight, .register stale =>
      let foreground := context.parent.isNone && !context.background
      match context.parent with
      | none => some (state, .registered flight foreground)
      | some parent =>
          some
            ((state.modify flight (addParent state parent stale)).modify parent Flight.release,
              .registered flight foreground)
  | .registered flight foreground, .count =>
      some (state.modify flight (Flight.enter foreground), .waiting flight foreground)
  | .waiting flight foreground, .finish value =>
      if (state.flight flight).working then
        some (state.modify flight (Flight.settle (.done value)), .waiting flight foreground)
      else none
  | .waiting flight foreground, .poison =>
      if (state.flight flight).working then
        some (state.modify flight (Flight.settle .poisoned), .waiting flight foreground)
      else none
  | .waiting flight foreground, .collect =>
      match (state.flight flight).outcome with
      | .done value =>
          some (state.modify flight Flight.dropHandle, .leaving flight foreground (some value))
      | _ => none
  | .waiting flight foreground, .cancel =>
      some (state.modify flight Flight.dropHandle, .leaving flight foreground none)
  | .leaving flight foreground value, .leave =>
      some (state.modify flight (Flight.exit foreground), .ended (value.map (flight, ·)))
  | _, _ => none

/-- A call of `run`. -/
structure Caller (K V : Type) where
  place : FlightTable × K
  phase : CallPhase V

/-- The flights with all their callers. -/
structure FlightWorld (K V : Type) where
  state : FlightState K V
  callers : List (Caller K V)

/-- What can happen next: a call, a step of a caller, or a task that keeps the demand in whose scope
it was started. -/
inductive FlightAction (K V : Type) where
  | call (place : FlightTable × K)
  | move (caller : Nat) (move : CallMove V)
  | inherit (flight : Nat)
  | endTask (flight : Nat)

/-- Whether a demand or one of the demands above it has callers of the foreground.  The fuel bounds
how far up the search goes. -/
def FlightState.active (state : FlightState K V) : Nat → Nat → Option Bool
  | 0, _ => none
  | fuel + 1, flight =>
      if (state.flight flight).foreground ≠ 0 then some true
      else
        ((state.flight flight).parents.filter fun parent =>
          decide ((state.flight parent).references ≠ 0)).anyM (state.active fuel)

/-- Whether what is read should be kept in the cache. -/
def FlightState.cacheRequested (state : FlightState K V) (fuel : Nat) (context : CallContext) :
    Option Bool :=
  match context.parent with
  | some demand => state.active fuel demand
  | none => some (!context.background)

namespace FlightWorld

/-- No flights and no callers. -/
def empty [Inhabited K] : FlightWorld K V where
  state :=
    { table := fun _ => none
      locked := fun _ => false
      flight := fun _ =>
        { place := (.names, default)
          outcome := .poisoned
          handles := 0
          references := 0
          foreground := 0
          parents := [] }
      count := 0
      inherited := [] }
  callers := []

/-- One step. -/
def step (world : FlightWorld K V) : FlightAction K V → Option (FlightWorld K V)
  | .call place => some { world with callers := world.callers ++ [⟨place, .created⟩] }
  | .move index move =>
      match world.callers[index]? with
      | none => none
      | some caller =>
          (callStep world.state caller.place caller.phase move).map fun (state, phase) =>
            ⟨state, world.callers.set index { caller with phase := phase }⟩
  | .inherit flight =>
      if world.state.inScope flight then
        some { world with state :=
          { world.state.modify flight Flight.retain with
            inherited := flight :: world.state.inherited } }
      else none
  | .endTask flight =>
      if world.state.inherited.contains flight then
        some { world with state :=
          { world.state.modify flight Flight.release with
            inherited := world.state.inherited.erase flight } }
      else none

end FlightWorld

end ArIoGateway
