import Doppelganger.Lib.Run
import Mathlib.Algebra.Order.Group.Nat

/-! Instruction-based fast-forwarding of `zsim.cpp`: a process alternates between fast-forward and
detailed intervals, whose ends are the `ffiPoints`.  The state is the process's, but the functions
that change it run in whatever threads have their pointers, and so they are right when only one
thread at a time is in fast-forward.  A core counts the instructions of a block when it begins, an
`OOOCore` when the next one begins.  Counts are natural numbers. -/

namespace Doppelganger.Procs.Ffi

open Lib

/-- What a thread's instrumentation points to, and where it stands in the barrier. -/
inductive Thread
  | join
  | core
  /-- In `sync`, until the phase is over. -/
  | sync
  /-- After `sync`, in the rest of `TakeBarrier`. -/
  | synced
  | ffiEntry
  | ffi
  | finished
deriving DecidableEq, Repr

/-- What the core that a thread runs on does with its blocks. -/
inductive Core
  /-- `SimpleCore`, `TimingCore` and `NullCore`. -/
  | simple
  /-- `OOOCore`, with the instructions of `prevBbl`. -/
  | ooo (prevBbl : Option Nat)
deriving DecidableEq, Repr

namespace Core

/-- A core that a thread is scheduled on. -/
def fresh (isOoo : Bool) : Core := if isOoo then .ooo none else .simple

/-- The instructions of the block that the core has not counted. -/
def held : Core → Nat
  | .simple => 0
  | .ooo prevBbl => prevBbl.getD 0

/-- `bbl`, with what it adds to `instrs`. -/
def bbl (instrs : Nat) : Core → Nat × Core
  | .simple => (instrs, .simple)
  | .ooo prevBbl => (prevBbl.getD 0, .ooo (some instrs))

end Core

/-- What the history records. -/
inductive Mark
  | advance
  | exit
  | enter
deriving DecidableEq, Repr

structure State where
  ffiPoint : Nat
  ffiInstrsDone : Nat
  ffiInstrsLimit : Nat
  ffiNFF : Bool
  ffiFFStartInstrs : Nat
  ffiPrevFFStartInstrs : Nat
  inFastForward : Bool
  /-- `getProcessInstrs`, the instructions that the cores have simulated. -/
  processInstrs : Nat
  /-- The queued events, each with the start and the target of its measurement. -/
  events : List (Nat × Nat)
  threads : List Thread
  /-- The core of each thread, which it keeps while it has its context. -/
  cores : List Core
  /-- All instructions of the process. -/
  executed : Nat
  /-- Those of the blocks that a core held when a thread lost its context. -/
  dropped : Nat
  history : List Mark
deriving DecidableEq, Repr

/-- Why an operation does not return. -/
inductive Stop
  /-- The thread is not where the operation starts. -/
  | disabled
  /-- `SimEnd`, after the last point. -/
  | ended
  /-- The assertion that the next point is not reached yet. -/
  | reached
  /-- An assertion on `ffiNFF` or `isInFastForward`. -/
  | assertion
deriving DecidableEq, Repr

inductive Op
  /-- A thread executes a basic block of so many instructions. -/
  | bbl (tid instrs : Nat)
  | sync (tid : Nat)
  /-- At the end of a phase, a queued event is called. -/
  | callback (i : Nat)
  | endPhase
  /-- The rest of `TakeBarrier`. -/
  | takeBarrier (tid : Nat)
  /-- The thread is going to run on an `OOOCore`, or on another core. -/
  | threadStart (isOoo : Bool)
  | threadFini (tid : Nat)
  /-- The thread is descheduled, and is going to run on another core. -/
  | contextSwitch (tid : Nat) (isOoo : Bool)
  | syscallEnter (tid : Nat)
  | syscallExit (tid : Nat)
  | roiBegin
  | roiEnd
deriving DecidableEq, Repr

namespace State

def setThread (tid : Nat) (t : Thread) (s : State) : State :=
  { s with threads := s.threads.set tid t }

/-- `GetFFPtrs`. -/
def getFFPtrs (s : State) : Thread := if s.ffiNFF then .ffiEntry else .ffi

def ffiTrackNFFInterval (s : State) : Except Stop State :=
  if s.inFastForward then .error .assertion
  else if s.ffiInstrsDone < s.ffiInstrsLimit then
    .ok { s with
      events := s.events ++ [(s.ffiFFStartInstrs, s.ffiInstrsLimit - s.ffiInstrsDone)]
      ffiNFF := true }
  else .error .reached

def ffiAdvance (ffiPoints : List Nat) (s : State) : Except Stop State :=
  match ffiPoints[s.ffiPoint + 1]? with
  | none => .error .ended
  | some point => .ok { s with
      ffiPoint := s.ffiPoint + 1
      ffiInstrsLimit := s.ffiInstrsLimit + point
      history := s.history ++ [.advance] }

def exitFastForward (s : State) : Except Stop State :=
  if s.inFastForward then
    .ok { s with inFastForward := false, history := s.history ++ [.exit] }
  else .error .assertion

def enterFastForward (s : State) : Except Stop State :=
  if s.inFastForward then .error .assertion
  else .ok { s with inFastForward := true, history := s.history ++ [.enter] }

/-- `FFIBasicBlock`.  `SimThreadStart` leaves the thread with the pointers that join. -/
def ffiBasicBlock (ffiPoints : List Nat) (tid instrs : Nat) (s : State) : Except Stop State :=
  let s := { s with ffiInstrsDone := s.ffiInstrsDone + instrs, executed := s.executed + instrs }
  if s.ffiInstrsLimit ≤ s.ffiInstrsDone then
    (s.ffiAdvance ffiPoints).bind fun s =>
      if s.inFastForward then
        s.exitFastForward.bind fun s => s.ffiTrackNFFInterval.map (setThread tid .join)
      else .error .assertion
  else .ok s

def ffiEntryBasicBlock (ffiPoints : List Nat) (tid instrs : Nat) (s : State) : Except Stop State :=
  let s := { s with
    ffiInstrsDone := s.ffiInstrsDone + (s.ffiFFStartInstrs - s.ffiPrevFFStartInstrs) }
  (s.ffiAdvance ffiPoints).bind fun s =>
    if s.ffiNFF then
      let s := { s with ffiNFF := false }
      (s.setThread tid s.getFFPtrs).ffiBasicBlock ffiPoints tid instrs
    else .error .assertion

/-- The process's threads have all come to the end of the phase. -/
def PhaseOver (s : State) : Prop := .core ∉ s.threads ∧ .synced ∉ s.threads

instance (s : State) : Decidable s.PhaseOver := inferInstanceAs (Decidable (_ ∧ _))

/-- The callback of a queued event, which fires and is gone when the target is reached. -/
def callback (i : Nat) (s : State) : Except Stop State :=
  match s.events[i]? with
  | none => .error .disabled
  | some (startInstrs, target) =>
    if target ≤ s.processInstrs - startInstrs then
      let s := { s with events := s.events.eraseIdx i }
      s.enterFastForward.map fun s => { s with
        ffiPrevFFStartInstrs := s.ffiFFStartInstrs
        ffiFFStartInstrs := s.processInstrs }
    else .ok s

def core (s : State) (tid : Nat) : Core := s.cores.getD tid .simple

def simulate (tid instrs : Nat) (s : State) : State :=
  let (counted, core) := (s.core tid).bbl instrs
  let s := s.setThread tid .core
  { s with
    processInstrs := s.processInstrs + counted
    cores := s.cores.set tid core
    executed := s.executed + instrs }

/-- `contextSwitch`, which does not execute the previous block. -/
def contextSwitch (tid : Nat) (isOoo : Bool) (s : State) : State :=
  { s with
    cores := s.cores.set tid (.fresh isOoo)
    dropped := s.dropped + (s.core tid).held }

def step (ffiPoints : List Nat) : Op → State → Except Stop State
  | .bbl tid instrs, s =>
    match s.threads[tid]? with
    | some .core | some .join => .ok (s.simulate tid instrs)
    | some .ffi => s.ffiBasicBlock ffiPoints tid instrs
    | some .ffiEntry => s.ffiEntryBasicBlock ffiPoints tid instrs
    | _ => .error .disabled
  | .sync tid, s =>
    if s.threads[tid]? = some .core then .ok (s.setThread tid .sync) else .error .disabled
  | .callback i, s => if s.PhaseOver then s.callback i else .error .disabled
  | .endPhase, s =>
    if s.PhaseOver then
      .ok { s with threads := s.threads.map fun t => if t = .sync then .synced else t }
    else .error .disabled
  | .takeBarrier tid, s =>
    if s.threads[tid]? = some .synced then
      .ok (s.setThread tid (if s.inFastForward then s.getFFPtrs else .core))
    else .error .disabled
  | .threadStart isOoo, s =>
    .ok { s with
      threads := s.threads ++ [if s.inFastForward then s.getFFPtrs else .join]
      cores := s.cores ++ [.fresh isOoo] }
  | .threadFini tid, s => .ok (s.setThread tid .finished)
  | .contextSwitch tid isOoo, s =>
    if s.threads[tid]? = some .core then .error .disabled else .ok (s.contextSwitch tid isOoo)
  | .syscallEnter tid, s =>
    if s.threads[tid]? = some .core then .ok (s.setThread tid .join) else .error .disabled
  | .syscallExit tid, s =>
    if s.threads[tid]? = some .join ∧ s.inFastForward then .ok (s.setThread tid s.getFFPtrs)
    else .ok s
  | .roiBegin, s => if s.inFastForward then s.exitFastForward else .ok s
  | .roiEnd, s => if s.inFastForward then .ok s else s.enterFastForward

/-- `FFIInit` in a process that starts in fast-forward or not; without points there is no FFI. -/
def ffiInit (ffiPoints : List Nat) (startFF : Bool) : Except Stop State :=
  match ffiPoints with
  | [] => .error .disabled
  | point :: _ =>
    let s : State := ⟨0, 0, point, false, 0, 0, startFF, 0, [], [], [], 0, 0, []⟩
    if startFF then .ok s else s.ffiTrackNFFInterval

end State

end Doppelganger.Procs.Ffi
