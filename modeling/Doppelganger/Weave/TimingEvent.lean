import Doppelganger.Lib.Run
import Doppelganger.Weave.Children
import Mathlib.Logic.Function.Basic

/-! The events of `timing_event.h`: a `TimingEvent` is queued when its last parent is done, and runs
when the contention simulation takes it from the queue; a `DelayEvent` is done as soon as its last
parent is.  The calls of `parentDone` that `done` makes are a list here, and those that a
`DelayEvent` makes come at its front.  An operation is `none` when an assertion fails, or when
`numParents` underflows. -/

namespace Doppelganger.Weave

open Function

inductive EventState
  | NONE
  | QUEUED
  | RUNNING
  | HELD
  | DONE
deriving DecidableEq, Repr

inductive EventClass
  | TimingEvent
  | DelayEvent
deriving DecidableEq, Repr

/-- What is set before the simulation. -/
structure EventSpec where
  cls : EventClass
  preDelay : Nat
  postDelay : Nat
  minStartCycle : Nat

/-- `DelayEvent::DelayEvent` -/
def EventSpec.delay (delay minStartCycle : Nat) : EventSpec :=
  ⟨.DelayEvent, delay, 0, minStartCycle⟩

/-- What changes in a `TimingEvent`. -/
structure TimingEvent (ι : Type*) where
  privCycle : Nat
  state : EventState
  cycle : Nat
  children : Children ι
  numParents : Nat

inductive RecordKind
  | ran
  | requeued
  | done
deriving DecidableEq, Repr

structure Record (ι : Type*) where
  kind : RecordKind
  event : ι
  cycle : Nat
deriving DecidableEq, Repr

/-- The events, and what the contention simulation has in its queues.  The ghost `edges` has the
pairs that were given to `addChild`, and `log` what happened, the latest first. -/
structure EventSim (ι : Type*) where
  events : ι → TimingEvent ι
  queue : List (Nat × ι)
  edges : List (ι × ι)
  log : List (Record ι)

/-- A call of `parentDone` with its `startCycle`. -/
abbrev Call (ι : Type*) := ι × Nat

namespace EventSim

variable {ι : Type*} [DecidableEq ι]

/-- New events.  One of the constructors leaves `cycle` as it is. -/
def init (cycle : ι → Nat) : EventSim ι := ⟨fun e => ⟨0, .NONE, cycle e, .init, 0⟩, [], [], []⟩

def set (e : ι) (ev : TimingEvent ι) (s : EventSim ι) : EventSim ι :=
  { s with events := update s.events e ev }

def setState (e : ι) (state : EventState) (s : EventSim ι) : EventSim ι :=
  s.set e { s.events e with state := state }

def record (kind : RecordKind) (e : ι) (cycle : Nat) (s : EventSim ι) : EventSim ι :=
  { s with log := ⟨kind, e, cycle⟩ :: s.log }

/-- `TimingEvent::addChild` without the domains. -/
def addChild (e childEv : ι) (s : EventSim ι) : Option (EventSim ι) :=
  if ((s.events e).state = .NONE ∨ (s.events e).state = .QUEUED) ∧
      (s.events childEv).state = .NONE then
    let s := s.set e { s.events e with children := (s.events e).children.addChild childEv }
    let s := s.set childEv { s.events childEv with
      numParents := (s.events childEv).numParents + 1 }
    some { s with edges := (e, childEv) :: s.edges }
  else none

/-- `ContentionSim::enqueue` and `enqueueSynced`. -/
def enqueue (e : ι) (cycle : Nat) (s : EventSim ι) : Option (EventSim ι) :=
  if (s.events e).numParents = 0 then
    some { s.set e { s.events e with privCycle := cycle } with queue := (cycle, e) :: s.queue }
  else none

/-- `done`, with the calls that it makes. -/
def finish (spec : ι → EventSpec) (e : ι) (doneCycle : Nat) (s : EventSim ι) :
    Option (EventSim ι × List (Call ι)) :=
  if (s.events e).state = .RUNNING then
    (s.events e).children.visitChildren.map fun cs =>
      ((s.setState e .DONE).record .done e doneCycle,
        cs.map fun c => (c, doneCycle + (spec e).postDelay))
  else none

/-- The end of `TimingEvent::parentDone`. -/
def wake (spec : ι → EventSpec) (e : ι) (s : EventSim ι) : Option (EventSim ι × List (Call ι)) :=
  if (s.events e).state = .NONE then
    ((s.setState e .QUEUED).enqueue e ((s.events e).cycle + (spec e).preDelay)).map (·, [])
  else none

/-- The end of `DelayEvent::parentDone`. -/
def pass (spec : ι → EventSpec) (e : ι) (s : EventSim ι) : Option (EventSim ι × List (Call ι)) :=
  let doneCycle := (s.events e).cycle + (spec e).preDelay
  ((s.setState e .RUNNING).record .ran e doneCycle).finish spec e doneCycle

/-- `parentDone` of both classes, with the calls that it makes. -/
def parentDone (spec : ι → EventSpec) (e : ι) (startCycle : Nat) (s : EventSim ι) :
    Option (EventSim ι × List (Call ι)) :=
  if (s.events e).numParents = 0 then none
  else
    let s := s.set e { s.events e with
      cycle := max (s.events e).cycle startCycle
      numParents := (s.events e).numParents - 1 }
    if (s.events e).numParents = 0 then
      match (spec e).cls with
      | .TimingEvent => s.wake spec e
      | .DelayEvent => s.pass spec e
    else some (s, [])

/-- The calls, in turn.  Those that a call makes come before the other ones. -/
def callAll (spec : ι → EventSpec) : Nat → List (Call ι) → EventSim ι → Option (EventSim ι)
  | _, [], s => some s
  | 0, _ :: _, _ => none
  | fuel + 1, (e, startCycle) :: calls, s =>
    (s.parentDone spec e startCycle).bind fun (s, more) => callAll spec fuel (more ++ calls) s

/-- `done` to its return.  No edge is used twice. -/
def done (spec : ι → EventSpec) (e : ι) (doneCycle : Nat) (s : EventSim ι) : Option (EventSim ι) :=
  (s.finish spec e doneCycle).bind fun (s, calls) => s.callAll spec s.edges.length calls

/-- `TimingEvent::queue` -/
def queueFirst (e : ι) (cycle : Nat) (s : EventSim ι) : Option (EventSim ι) :=
  if (s.events e).state = .NONE ∧ (s.events e).numParents = 0 then
    (s.setState e .QUEUED).enqueue e cycle
  else none

def requeue (e : ι) (nextCycle : Nat) (s : EventSim ι) : Option (EventSim ι) :=
  if (s.events e).numParents = 0 ∧
      ((s.events e).state = .RUNNING ∨ (s.events e).state = .HELD) then
    ((s.setState e .QUEUED).record .requeued e nextCycle).enqueue e nextCycle
  else none

/-- The contention simulation takes the event from its queue and calls `run`.  The simulation of a
`DelayEvent` panics. -/
def run (spec : ι → EventSpec) (e : ι) (cycle : Nat) (s : EventSim ι) : Option (EventSim ι) :=
  if (cycle, e) ∈ s.queue ∧ ((s.events e).state = .NONE ∨ (s.events e).state = .QUEUED) ∧
      (spec e).minStartCycle ≤ cycle ∧ (spec e).cls = .TimingEvent then
    some { (s.setState e .RUNNING).record .ran e cycle with queue := s.queue.erase (cycle, e) }
  else none

def hold (e : ι) (s : EventSim ι) : Option (EventSim ι) :=
  if (s.events e).state = .RUNNING then some (s.setState e .HELD) else none

def release (e : ι) (s : EventSim ι) : Option (EventSim ι) :=
  if (s.events e).state = .HELD then some (s.setState e .RUNNING) else none

end EventSim

/-- What the recorders and the simulation of an event do. -/
inductive EventOp (ι : Type*)
  | addChild (e childEv : ι)
  | queue (e : ι) (cycle : Nat)
  | run (e : ι) (cycle : Nat)
  | hold (e : ι)
  | release (e : ι)
  | requeue (e : ι) (nextCycle : Nat)
  | done (e : ι) (doneCycle : Nat)

namespace EventSim

variable {ι : Type*} [DecidableEq ι]

def step (spec : ι → EventSpec) : EventOp ι → EventSim ι → Option (EventSim ι)
  | .addChild e childEv, s => s.addChild e childEv
  | .queue e cycle, s => s.queueFirst e cycle
  | .run e cycle, s => s.run spec e cycle
  | .hold e, s => s.hold e
  | .release e, s => s.release e
  | .requeue e nextCycle, s => s.requeue e nextCycle
  | .done e doneCycle, s => s.done spec e doneCycle

/-- What the callers promise: children are added before an event runs, and to events that have not
been queued; only a `TimingEvent` is queued by hand, once and without parents; an event is run
from the queue and not before its `minStartCycle`; and its simulation, in one call or with holds
and requeues in between, calls `done` not before its start. -/
def Allowed (spec : ι → EventSpec) : EventOp ι → EventSim ι → Prop
  | .addChild e childEv, s => ((s.events e).state = .NONE ∨ (s.events e).state = .QUEUED) ∧
      (s.events childEv).state = .NONE
  | .queue e _, s => (spec e).cls = .TimingEvent ∧ (s.events e).state = .NONE ∧
      (s.events e).numParents = 0
  | .run e cycle, s => (cycle, e) ∈ s.queue ∧ (spec e).minStartCycle ≤ cycle
  | .hold e, s => (s.events e).state = .RUNNING
  | .release e, s => (s.events e).state = .HELD
  | .requeue e nextCycle, s => ((s.events e).state = .RUNNING ∨ (s.events e).state = .HELD) ∧
      (s.events e).privCycle ≤ nextCycle
  | .done e doneCycle, s => (s.events e).state = .RUNNING ∧ (s.events e).privCycle ≤ doneCycle

instance (spec : ι → EventSpec) : ∀ (op : EventOp ι) (s : EventSim ι), Decidable (Allowed spec op s)
  | .addChild .., _ | .queue .., _ | .run .., _ | .requeue .., _ | .done .., _ =>
    inferInstanceAs (Decidable (_ ∧ _))
  | .hold _, _ | .release _, _ => inferInstanceAs (Decidable (_ = _))

end EventSim

end Doppelganger.Weave
