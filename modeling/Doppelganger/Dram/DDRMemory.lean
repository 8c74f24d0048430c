import Doppelganger.Lib.Run
import Doppelganger.Dram.Controller

/-! The controller with the events that tick and refresh it.  A step is an access event that
enqueues its request, a `SchedEvent`, or the `RefreshEvent`; it is `none` when an assertion
fails. -/

namespace Doppelganger.Dram

/-- The state of a `SchedEvent`. -/
inductive SchedState
  | IDLE
  | QUEUED
  | RUNNING
  | ANNULLED
deriving DecidableEq, Repr

/-- The controller and its events.  `pending` are the `SchedEvent`s in the queue of the weave phase,
with their cycles; `refreshCycle` is the cycle of the `RefreshEvent`.  `nextSchedCycle` is `none`
for the cycle `-1`. -/
structure DDRMemory where
  ctl : Controller
  numRequests : Nat
  nextSchedEvent : Option Nat
  nextSchedCycle : Option Nat
  eventFreelist : List Nat
  schedEvents : Nat → SchedState
  numSchedEvents : Nat
  pending : List (Nat × Nat)
  refreshCycle : Nat
  curCycle : Nat

namespace DDRMemory

def init (cfg : Config) : DDRMemory where
  ctl := .init cfg
  numRequests := 0
  nextSchedEvent := none
  nextSchedCycle := none
  eventFreelist := []
  schedEvents := fun _ => .IDLE
  numSchedEvents := 0
  pending := []
  refreshCycle := 0
  curCycle := 0

variable (cfg : Config) (s : DDRMemory)

/-! ### `SchedEvent` -/

/-- `SchedEvent::enqueue`. -/
def enqueueEvent (ev cycle : Nat) : Option DDRMemory :=
  if s.schedEvents ev = .IDLE then
    some { s with
      schedEvents := Function.update s.schedEvents ev .QUEUED
      pending := s.pending ++ [(ev, cycle)] }
  else none

def annul (ev : Nat) : Option DDRMemory :=
  if s.schedEvents ev = .QUEUED then
    some { s with schedEvents := Function.update s.schedEvents ev .ANNULLED }
  else none

/-- The event to use next: a free one, or a new one. -/
def allocEvent : DDRMemory × Nat :=
  match s.eventFreelist with
  | ev :: rest => ({ s with eventFreelist := rest }, ev)
  | [] => ({ s with numSchedEvents := s.numSchedEvents + 1 }, s.numSchedEvents)

/-- `next` of an event is null when the event is not in the `eventFreelist`, or last in it. -/
def recycleEvent (ev : Nat) : Option DDRMemory :=
  if s.nextSchedEvent = some ev ∨ ev ∈ s.eventFreelist.dropLast then none
  else some { s with eventFreelist := ev :: s.eventFreelist }

/-! ### `DDRMemory` -/

/-- A cycle, which may be `-1`, is after another one. -/
def isAfter (cycle : Option Nat) (other : Nat) : Bool := cycle.all (other < ·)

/-- Schedule an event for a request that is the first one of its bank. -/
def wakeAt (req : Request) (memCycle sysCycle : Nat) : Option DDRMemory :=
  let t := cfg.timing
  let minSchedCycle := max memCycle (s.ctl.minRespCycle - t.tCL - t.tBL)
  let minSchedCycle := if isAfter s.nextSchedCycle minSchedCycle then
      max minSchedCycle (s.ctl.findMinCmdCycle cfg req) else minSchedCycle
  if isAfter s.nextSchedCycle minSchedCycle then
    (s.nextSchedEvent.elim (some s) s.annul).bind fun s =>
      let (s, ev) := s.allocEvent
      ({ s with nextSchedEvent := some ev, nextSchedCycle := some minSchedCycle }).enqueueEvent ev
        (max (cfg.matchingMemToSysCycle minSchedCycle) sysCycle)
  else some s

/-- `enqueue`, of the access event whose number is `numRequests`. -/
def enqueue (lineAddr : UInt64) (write : Bool) (sysCycle : Nat) : Option DDRMemory :=
  (cfg.mapLineAddr lineAddr).bind fun loc =>
    let memCycle := cfg.sysToMemCycle sysCycle
    let ev := s.numRequests
    let req : Request := ⟨ev, loc, write, 0, memCycle, some ev⟩
    let ctl := { s.ctl with held := ev :: s.ctl.held }
    let s := { s with numRequests := ev + 1, curCycle := sysCycle }
    if s.ctl.full cfg then
      some { s with ctl := { ctl with overflowQueue := ctl.overflowQueue ++ [req] } }
    else
      (ctl.queue cfg req memCycle).bind fun (ctl, req) =>
        if ctl.first cfg req then { s with ctl := ctl }.wakeAt cfg req memCycle sysCycle
        else some { s with ctl := ctl }

/-- What `tick` does with the `overflowQueue`, and the `minSchedCycle` after that. -/
def takeOverflow (ctl : Controller) (minSchedCycle : Option Nat) (memCycle : Nat) :
    Option (Controller × Option Nat) :=
  let t := cfg.timing
  match ctl.overflowQueue with
  | [] => some (ctl, minSchedCycle)
  | ovfReq :: rest =>
    if ctl.full cfg then some (ctl, minSchedCycle)
    else
      ({ ctl with overflowQueue := rest }.queue cfg ovfReq memCycle).map
        fun ((ctl, req) : Controller × Request) =>
        if ctl.first cfg req then
          let minQueuedSchedCycle := max memCycle (ctl.minRespCycle - t.tCL - t.tBL)
          let minSchedCycle := if isAfter minSchedCycle minQueuedSchedCycle then
              some (max minQueuedSchedCycle (ctl.findMinCmdCycle cfg req)) else minSchedCycle
          (ctl, if isAfter minSchedCycle minQueuedSchedCycle then some minQueuedSchedCycle
            else minSchedCycle)
        else (ctl, minSchedCycle)

/-- `tick`, with the cycle that it returns. -/
def tick (sysCycle : Nat) : Option (DDRMemory × Nat) :=
  let memCycle := cfg.sysToMemCycle sysCycle
  if s.nextSchedCycle = some memCycle then
    (s.ctl.trySchedule cfg memCycle sysCycle).bind fun (ctl, minSchedCycle) =>
      if minSchedCycle.all (memCycle ≤ ·) then
        (takeOverflow cfg ctl minSchedCycle memCycle).map fun (ctl, minSchedCycle) =>
          match minSchedCycle with
          | none =>
            ({ s with ctl := ctl, nextSchedCycle := none, nextSchedEvent := none }, 0)
          | some cycle =>
            ({ s with ctl := ctl, nextSchedCycle := some cycle },
              max (cfg.matchingMemToSysCycle cycle) sysCycle)
      else none
  else none

/-- `SchedEvent::simulate`, of a pending event at its cycle. -/
def fire (ev : Nat) : Option DDRMemory :=
  (s.pending.lookup ev).bind fun startCycle =>
    let state := s.schedEvents ev
    let s := { s with pending := s.pending.erase (ev, startCycle), curCycle := startCycle }
    if state = .QUEUED then
      ({ s with schedEvents := Function.update s.schedEvents ev .RUNNING }.tick cfg
        startCycle).bind fun (s, nextCycle) =>
        if nextCycle ≠ 0 then
          some { s with
            schedEvents := Function.update s.schedEvents ev .QUEUED
            pending := s.pending ++ [(ev, nextCycle)] }
        else { s with schedEvents := Function.update s.schedEvents ev .IDLE }.recycleEvent ev
    else if state = .ANNULLED then
      { s with schedEvents := Function.update s.schedEvents ev .IDLE }.recycleEvent ev
    else none

/-- `RefreshEvent::simulate`. -/
def refresh : DDRMemory :=
  { s with
    ctl := s.ctl.refresh cfg (cfg.sysToMemCycle s.refreshCycle)
    refreshCycle := s.refreshCycle + cfg.refInterval
    curCycle := s.refreshCycle }

end DDRMemory

/-! ### Runs -/

inductive Op
  | enqueue (lineAddr : UInt64) (write : Bool) (sysCycle : Nat)
  | fire (ev : Nat)
  | refresh
deriving DecidableEq, Repr

def step (cfg : Config) : Op → DDRMemory → Option DDRMemory
  | .enqueue lineAddr write sysCycle, s => s.enqueue cfg lineAddr write sysCycle
  | .fire ev, s => s.fire cfg ev
  | .refresh, s => some (s.refresh cfg)

/-- An event is next when no pending event is earlier. -/
def Enabled : Op → DDRMemory → Prop
  | .enqueue _ _ sysCycle, s =>
    s.curCycle ≤ sysCycle ∧ (∀ e ∈ s.pending, sysCycle ≤ e.2) ∧ sysCycle ≤ s.refreshCycle
  | .fire ev, s => ∃ cycle, s.pending.lookup ev = some cycle ∧ (∀ e ∈ s.pending, cycle ≤ e.2) ∧
    cycle ≤ s.refreshCycle
  | .refresh, s => ∀ e ∈ s.pending, s.refreshCycle ≤ e.2

end Doppelganger.Dram
