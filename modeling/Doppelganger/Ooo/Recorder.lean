import Doppelganger.Types
import Mathlib.Algebra.Group.Int.Defs
import Mathlib.Algebra.Group.Nat.Defs
import Mathlib.Logic.Function.Basic

/-! The recorder of an out-of-order core (`ooo_core_recorder.cpp`): the clocks, the chain of issue
events that it produces, and the weave phases that simulate them.  Cycles are natural numbers;
delays of events have 32 bits.  What happens between the start and the end of an access is not the
recorder's: a step of the weave phase says how much delay it adds. -/

namespace Doppelganger.Ooo

inductive State
  | HALTED
  | RUNNING
  | DRAINING
deriving DecidableEq, Repr

/-- An `OOOIssueEvent` and its parents: the issue event before it, by way of a `DelayEvent`, and
responses.  `start` is the cycle at which it was simulated. -/
structure IssueEvent where
  zllStartCycle : Nat
  minStartCycle : Nat
  preDelay : Nat
  prev : Option Nat
  issueDelay : Nat
  resps : List Nat
  start : Option Nat
deriving DecidableEq, Repr

/-- An `OOORespEvent` and what leads to it: the dispatch event, which has an issue event and earlier
responses as parents, and the access. -/
structure RespEvent where
  zllStartCycle : Nat
  minStartCycle : Nat
  issue : Nat
  dispDelay : Nat
  resps : List (Nat × Nat)
  upDelay : Nat
  reqCycle : Nat
  respCycle : Nat
  downDelay : Nat
  start : Option Nat
deriving DecidableEq, Repr

structure FutureResponse where
  zllStartCycle : Nat
  ev : Option Nat
deriving DecidableEq, Repr

/-- The recorder, its events, and the `curCycle` of its core.  `futureResponses` are in the order in
which the heap pops them. -/
structure Recorder where
  state : State
  gapCycles : Nat
  lastEvProduced : Option Nat
  futureResponses : List FutureResponse
  lastEvSimulatedZllStartCycle : Nat
  lastEvSimulatedStartCycle : Nat
  totalGapCycles : Nat
  totalHaltedCycles : Nat
  lastUnhaltedCycle : Nat
  issues : Nat → IssueEvent
  numIssues : Nat
  resps : Nat → RespEvent
  numResps : Nat
  curCycle : Nat
  globPhaseCycles : Nat
  inWeave : Bool

namespace Recorder

def init : Recorder where
  state := .HALTED
  gapCycles := 0
  lastEvProduced := none
  futureResponses := []
  lastEvSimulatedZllStartCycle := 0
  lastEvSimulatedStartCycle := 0
  totalGapCycles := 0
  totalHaltedCycles := 0
  lastUnhaltedCycle := 0
  issues := fun _ => ⟨0, 0, 0, none, 0, [], none⟩
  numIssues := 0
  resps := fun _ => ⟨0, 0, 0, 0, [], 0, 0, 0, 0, none⟩
  numResps := 0
  curCycle := 0
  globPhaseCycles := 0
  inWeave := false

/-- A difference of two cycles, as a delay of an event. -/
def delay (later earlier : Nat) : Nat := (((later : Int) - earlier) % 2 ^ 32).toNat

variable (phaseLength : Nat) (s : Recorder)

def nextPhaseCycle : Nat := s.globPhaseCycles + phaseLength

/-! ### The bound phase -/

/-- Link an issue event with prior outstanding responses: those, and the cycle of the last one. -/
def linkPrior (zllCycle lastZll : Nat) : List FutureResponse → List Nat → Nat →
    Option (List Nat × Nat × List FutureResponse)
  | [], linked, maxCycle => some (linked, maxCycle, [])
  | firstResp :: rest, linked, maxCycle =>
    if firstResp.zllStartCycle ≥ zllCycle then some (linked, maxCycle, firstResp :: rest)
    else match firstResp.ev with
      | some ev =>
        if maxCycle ≤ firstResp.zllStartCycle ∧ firstResp.zllStartCycle ≥ lastZll then
          linkPrior zllCycle lastZll rest (linked ++ [ev]) firstResp.zllStartCycle
        else none
      | none => linkPrior zllCycle lastZll rest linked maxCycle

/-- The event `lastEvProduced` gets a child, so it must not have been simulated; no more must the
responses. -/
def addIssueEvent (evCycle : Nat) : Option Recorder :=
  s.lastEvProduced.bind fun last =>
    let lastEv := s.issues last
    let zllCycle := evCycle - s.gapCycles
    if zllCycle ≥ lastEv.zllStartCycle ∧ lastEv.start = none then
      (linkPrior zllCycle lastEv.zllStartCycle s.futureResponses [] 0).bind
        fun (linked, maxCycle, rest) =>
        if ∀ r ∈ linked, (s.resps r).start = none then
          let preDelay := if maxCycle ≠ 0 ∧ maxCycle < zllCycle then delay zllCycle maxCycle else 0
          let issueDelay := delay zllCycle (lastEv.zllStartCycle + preDelay)
          some { s with
            futureResponses := rest
            issues := Function.update s.issues s.numIssues
              ⟨zllCycle, evCycle, preDelay, some last, issueDelay, linked, none⟩
            numIssues := s.numIssues + 1
            lastEvProduced := some s.numIssues }
        else none
    else none

/-- `notifyJoin`; a core that is ahead of the cycle it returns does not go back. -/
def notifyJoin (curCycle : Nat) : Option Recorder :=
  match s.state with
  | .HALTED =>
    if s.lastEvProduced = none ∧ s.lastUnhaltedCycle ≤ s.globPhaseCycles then
      some { s with
        state := .RUNNING
        curCycle := max curCycle s.globPhaseCycles
        totalGapCycles := s.totalGapCycles + s.gapCycles
        gapCycles := 0
        totalHaltedCycles := s.totalHaltedCycles + (s.globPhaseCycles - s.lastUnhaltedCycle)
        issues := Function.update s.issues s.numIssues
          ⟨s.globPhaseCycles, s.globPhaseCycles, 0, none, 0, [], none⟩
        numIssues := s.numIssues + 1
        lastEvProduced := some s.numIssues }
    else none
  | .DRAINING =>
    if curCycle ≥ s.globPhaseCycles then
      let s : Recorder := { s with curCycle := curCycle, state := .RUNNING }
      s.addIssueEvent curCycle
    else none
  | .RUNNING => none

def notifyLeave (curCycle : Nat) : Option Recorder :=
  if s.state = .RUNNING then
    let s : Recorder := { s with state := .DRAINING, curCycle := curCycle }
    s.addIssueEvent curCycle
  else none

def pushResponse (fr : FutureResponse) : List FutureResponse → List FutureResponse
  | [] => [fr]
  | first :: rest =>
    if first.zllStartCycle ≤ fr.zllStartCycle then first :: pushResponse fr rest
    else fr :: first :: rest

/-- `recordAccess` of a GET, which was requested at `reqCycle` and answered at `trRespCycle`. -/
def recordGet (curCycle dispatchCycle reqCycle trRespCycle respCycle : Nat) : Option Recorder :=
  ({ s with curCycle := curCycle }.addIssueEvent curCycle).bind fun s =>
    let zllDispatchCycle := dispatchCycle - s.gapCycles
    let prior := s.futureResponses.filterMap fun fr : FutureResponse => fr.ev.bind fun ev =>
      if fr.zllStartCycle < zllDispatchCycle then
        some (ev, delay zllDispatchCycle fr.zllStartCycle) else none
    if respCycle ≥ trRespCycle ∧ ∀ p ∈ prior, (s.resps p.1).start = none then
      let zllStartCycle := respCycle - s.gapCycles
      some { s with
        resps := Function.update s.resps s.numResps
          ⟨zllStartCycle, respCycle, s.numIssues - 1, delay dispatchCycle curCycle, prior,
            delay reqCycle dispatchCycle, reqCycle, trRespCycle, delay respCycle trRespCycle, none⟩
        numResps := s.numResps + 1
        futureResponses := pushResponse ⟨zllStartCycle, some s.numResps⟩ s.futureResponses }
    else none

/-- `recordAccess` of a PUT: `lastEvProduced` gets a child that nothing here waits for. -/
def recordPut (curCycle : Nat) : Option Recorder :=
  s.lastEvProduced.bind fun last =>
    if (s.issues last).start = none then some { s with curCycle := curCycle } else none

/-- `cSimStart` begins a weave phase. -/
def cSimStart (curCycle : Nat) : Option Recorder :=
  let s := { s with curCycle := curCycle, inWeave := true }
  let next := s.nextPhaseCycle phaseLength
  match s.state with
  | .HALTED => some s
  | .RUNNING =>
    s.lastEvProduced.bind fun last =>
      let lastZll := (s.issues last).zllStartCycle
      if curCycle > next ∧ lastZll ≤ curCycle - s.gapCycles then
        if lastZll < next - s.gapCycles then s.addIssueEvent next else some s
      else none
  | .DRAINING => some { s with
      futureResponses := []
      curCycle := max curCycle next }

/-! ### The weave phase -/

/-- The starts of events, when all of them were simulated. -/
def allStarts (starts : List (Option Nat)) : Option (List Nat) := starts.mapM id

/-- When an issue event starts: an event that was queued, at its cycle, and another one `preDelay`
after its last parent. -/
def issueStart (i : Nat) : Option Nat :=
  let ev := s.issues i
  match ev.prev with
  | none => some ev.minStartCycle
  | some p =>
    (s.issues p).start.bind fun u =>
      (allStarts (ev.resps.map fun r => (s.resps r).start)).map fun ts =>
        ts.foldl max (u + ev.issueDelay) + ev.preDelay

/-- When a response starts, with `extra` cycles that the access is delayed. -/
def respStart (extra r : Nat) : Option Nat :=
  let ev := s.resps r
  (s.issues ev.issue).start.bind fun u =>
    (allStarts (ev.resps.map fun p => (s.resps p.1).start.map (· + p.2))).map fun ts =>
      ts.foldl max (u + ev.dispDelay) + ev.upDelay + (ev.respCycle - ev.reqCycle) + extra +
        ev.downDelay

/-- `OOOIssueEvent::simulate`, after the assertion of `TimingEvent::run`. -/
def simulateIssue (i : Nat) : Option Recorder :=
  (s.issueStart i).bind fun startCycle =>
    if startCycle ≥ (s.issues i).minStartCycle then
      some { s with
        issues := Function.update s.issues i { s.issues i with start := some startCycle }
        lastEvSimulatedZllStartCycle := (s.issues i).zllStartCycle
        lastEvSimulatedStartCycle := startCycle
        lastEvProduced := if s.lastEvProduced = some i then none else s.lastEvProduced }
    else none

/-- `OOORespEvent::simulate`. -/
def simulateResp (extra r : Nat) : Option Recorder :=
  (s.respStart extra r).bind fun startCycle =>
    if startCycle ≥ (s.resps r).minStartCycle then
      some { s with
        resps := Function.update s.resps r { s.resps r with start := some startCycle } }
    else none

/-- `cSimEnd` ends a weave phase, and the phase. -/
def cSimEnd : Option Recorder :=
  let next := s.nextPhaseCycle phaseLength
  if s.state = .HALTED then some { s with inWeave := false, globPhaseCycles := next }
  else
    let lastEvCycle1 := s.lastEvSimulatedZllStartCycle + s.gapCycles
    let lastEvCycle2 := s.lastEvSimulatedStartCycle
    if lastEvCycle1 ≤ s.curCycle ∧ lastEvCycle2 ≤ s.curCycle ∧ lastEvCycle1 ≤ lastEvCycle2 then
      let skew := lastEvCycle2 - lastEvCycle1
      let s := { s with
        curCycle := s.curCycle + skew
        gapCycles := s.gapCycles + skew
        futureResponses := s.futureResponses.map fun fr =>
          { fr with ev := fr.ev.filter fun ev => (s.resps ev).start = none }
        inWeave := false
        globPhaseCycles := next }
      if s.lastEvProduced = none then
        if s.state = .DRAINING ∧ s.futureResponses = [] then
          some { s with lastUnhaltedCycle := s.lastEvSimulatedStartCycle, state := .HALTED }
        else none
      else some s
    else none

end Recorder

/-! ### Runs -/

/-- What the recorder is called for, and the events that the weave phase simulates. -/
inductive Op
  | join (curCycle : Nat)
  | leave (curCycle : Nat)
  | get (curCycle dispatchCycle reqCycle trRespCycle respCycle : Nat)
  | put (curCycle : Nat)
  | cSimStart (curCycle : Nat)
  | issue (i : Nat)
  | resp (extra r : Nat)
  | cSimEnd
deriving DecidableEq, Repr

def step (phaseLength : Nat) : Op → Recorder → Option Recorder
  | .join curCycle, s => s.notifyJoin curCycle
  | .leave curCycle, s => s.notifyLeave curCycle
  | .get curCycle dispatchCycle reqCycle trRespCycle respCycle, s =>
    s.recordGet curCycle dispatchCycle reqCycle trRespCycle respCycle
  | .put curCycle, s => s.recordPut curCycle
  | .cSimStart curCycle, s => s.cSimStart phaseLength curCycle
  | .issue i, s => s.simulateIssue i
  | .resp extra r, s => s.simulateResp extra r
  | .cSimEnd, s => s.cSimEnd phaseLength

/-- What the core, the phases and the order of events in them see to. -/
def Enabled (phaseLength : Nat) : Op → Recorder → Prop
  | .join curCycle, s => s.inWeave = false ∧ s.state ≠ .RUNNING ∧ s.curCycle = curCycle
  | .leave curCycle, s => s.inWeave = false ∧ s.state = .RUNNING ∧ s.curCycle ≤ curCycle
  | .get curCycle dispatchCycle reqCycle trRespCycle respCycle, s =>
    s.inWeave = false ∧ s.state = .RUNNING ∧ s.curCycle ≤ curCycle ∧ curCycle ≤ dispatchCycle ∧
      dispatchCycle ≤ reqCycle ∧ reqCycle ≤ trRespCycle ∧ trRespCycle ≤ respCycle
  | .put curCycle, s => s.inWeave = false ∧ s.state = .RUNNING ∧ s.curCycle ≤ curCycle
  | .cSimStart curCycle, s => s.inWeave = false ∧ s.curCycle ≤ curCycle ∧
    (s.state = .RUNNING → s.nextPhaseCycle phaseLength < curCycle)
  | .issue i, s => s.inWeave = true ∧ i < s.numIssues ∧ (s.issues i).start = none ∧
    ∃ t, s.issueStart i = some t ∧ t < s.nextPhaseCycle phaseLength
  | .resp extra r, s => s.inWeave = true ∧ r < s.numResps ∧ (s.resps r).start = none ∧
    ∃ t, s.respStart extra r = some t ∧ t < s.nextPhaseCycle phaseLength
  | .cSimEnd, s => s.inWeave = true ∧ ∀ i < s.numIssues, (s.issues i).start = none →
    ∀ t, s.issueStart i = some t → s.nextPhaseCycle phaseLength ≤ t

end Doppelganger.Ooo
