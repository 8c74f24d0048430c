import Mathlib.Logic.Function.Basic

/-! The barrier of `barrier.h`, which lets `parallelThreads` threads run at a time and wakes the
next ones of its list when those sync or leave.  The calls are made under the scheduler lock, so
each is one operation.  An operation is `none` when an assertion fails, when the wakeup panics, or
when it reads the list past its end. -/

namespace Doppelganger.Sched

open Function

inductive State
  | OFFLINE
  | WAITING
  | RUNNING
  | LEFT
deriving DecidableEq, Repr

structure ThreadSyncInfo where
  state : State
  futexWord : Nat
  lastIdx : Nat
deriving DecidableEq, Repr

/-- What happens at a barrier: the calls of the threads, the wakeups, and the callbacks at the end
of a phase, with the states that the threads are in then. -/
inductive Entry
  | joined (tid : Nat)
  | left (tid : Nat)
  | synced (tid : Nat)
  | woken (tid : Nat)
  | callback (states : Nat → State)

/-- `Barrier`.  The first `runListSize` entries of `runList` are the list here, and the ghost
`trace` is what has happened, the latest first. -/
structure Barrier where
  threadList : Nat → ThreadSyncInfo
  runList : List Nat
  curThreadIdx : Nat
  runningThreads : Nat
  leftThreads : Nat
  phaseCount : Nat
  trace : List Entry

/-- What `rnd.randInt` returns in a shuffle: a number up to its argument. -/
structure Rand where
  randInt : Nat → Nat
  le : ∀ i, randInt i ≤ i

/-- The constructor, which leaves each `lastIdx` as it is. -/
def init (lastIdx : Nat → Nat) : Barrier :=
  ⟨fun tid => ⟨.OFFLINE, 0, lastIdx tid⟩, [], 0, 0, 0, 0, []⟩

namespace Barrier

def states (b : Barrier) (tid : Nat) : State := (b.threadList tid).state

def setThread (tid : Nat) (info : ThreadSyncInfo) (b : Barrier) : Barrier :=
  { b with threadList := update b.threadList tid info }

def setLastIdx (tid idx : Nat) (b : Barrier) : Barrier :=
  b.setThread tid { b.threadList tid with lastIdx := idx }

/-- `itid` at `i` and `jtid` at `j` change places. -/
def swapped (i j itid jtid : Nat) (b : Barrier) : Barrier :=
  (({ b with runList := (b.runList.set i jtid).set j itid }).setLastIdx itid j).setLastIdx jtid i

/-- `runList[i]` and `runList[j]` change places, as in the shuffle and when a thread rejoins. -/
def swapEntries (i j : Nat) (b : Barrier) : Option Barrier :=
  b.runList[i]?.bind fun itid => b.runList[j]?.map fun jtid => b.swapped i j itid jtid

/-! ### `checkRunList` -/

/-- The thread at `curThreadIdx` runs. -/
def wake (wtid : Nat) (b : Barrier) : Barrier :=
  { b.setThread wtid ⟨.RUNNING, 0, b.curThreadIdx⟩ with
    curThreadIdx := b.curThreadIdx + 1
    runningThreads := b.runningThreads + 1
    trace := .woken wtid :: b.trace }

/-- The cursor goes past a thread that does not wait. -/
def skip (b : Barrier) : Barrier := { b with curThreadIdx := b.curThreadIdx + 1 }

/-- One round of the loop. -/
def wakeNext (b : Barrier) : Option Barrier :=
  b.runList[b.curThreadIdx]?.bind fun wtid =>
    if b.states wtid = .WAITING then
      if (b.threadList wtid).futexWord = 1 then some (b.wake wtid) else none
    else some b.skip

/-- The loop, for as long as entries are left. -/
def wakeLoop (parallelThreads : Nat) : Nat → Barrier → Option Barrier
  | 0, b => some b
  | n + 1, b =>
    if b.runningThreads < parallelThreads then (wakeNext b).bind (wakeLoop parallelThreads n)
    else some b

def checkRunList (parallelThreads : Nat) (b : Barrier) : Option Barrier :=
  wakeLoop parallelThreads (b.runList.length - b.curThreadIdx) b

/-! ### `checkEndPhase` -/

/-- `wtid` at `idx` leaves the list, and the last entry `stid` takes its place. -/
def dropped (idx wtid stid : Nat) (b : Barrier) : Barrier :=
  ({ b.setThread wtid { b.threadList wtid with state := .OFFLINE } with
    runList := b.runList.set idx stid }).setLastIdx stid idx

/-- The loop of the cleanup at `idx`, with `newSize` at `idx + n`: its rounds advance `idx` or
reduce `newSize`.  It returns the last `newSize`. -/
def cleanupLoop : Nat → Nat → Barrier → Option (Barrier × Nat)
  | 0, idx, b => some (b, idx)
  | n + 1, idx, b => b.runList[idx]?.bind fun wtid =>
    if b.states wtid = .LEFT then
      b.runList[idx + n]?.bind fun stid => cleanupLoop n idx (b.dropped idx wtid stid)
    else cleanupLoop n (idx + 1) b

/-- The pass that takes the threads that left out of the list. -/
def cleanup (b : Barrier) : Option Barrier :=
  if b.runList.length > 0 then
    (cleanupLoop b.runList.length 0 b).bind fun (b', newSize) =>
      if b.runList.length - newSize = b.leftThreads then
        some { b' with leftThreads := 0, runList := b'.runList.take newSize }
      else none
  else none

/-- The loop of the shuffle from `i` down. -/
def shuffle (rnd : Rand) : Nat → Barrier → Option Barrier
  | 0, b => some b
  | i + 1, b => (b.swapEntries (i + 1) (rnd.randInt (i + 1))).bind (shuffle rnd i)

/-- The callback of the scheduler, and the list from its start again. -/
def rewind (b : Barrier) : Barrier :=
  { b with curThreadIdx := 0, trace := .callback b.states :: b.trace }

def checkEndPhase (parallelThreads : Nat) (rnd : Rand) (b : Barrier) : Option Barrier :=
  if b.curThreadIdx = b.runList.length ∧ b.runningThreads = 0 then
    if b.leftThreads = b.runList.length then some b
    else
      let cleaned := if b.phaseCount &&& (32 - 1) = 0 then cleanup b.rewind else some b.rewind
      cleaned.bind fun b' =>
        let b' := { b' with phaseCount := b.phaseCount + 1 }
        if parallelThreads < b'.runList.length then shuffle rnd (b'.runList.length - 1) b'
        else some b'
  else some b

def tryWakeNext (parallelThreads : Nat) (rnd : Rand) (b : Barrier) : Option Barrier :=
  (checkRunList parallelThreads b).bind fun b =>
    (checkEndPhase parallelThreads rnd b).bind (checkRunList parallelThreads)

/-! ### The calls -/

/-- The thread is about to wait, after the call that is recorded as `e`. -/
def setWaiting (tid : Nat) (e : Entry) (b : Barrier) : Barrier :=
  { b.setThread tid { b.threadList tid with state := .WAITING, futexWord := 1 } with
    trace := e :: b.trace }

def setLeft (tid : Nat) (b : Barrier) : Barrier :=
  { b.setThread tid { b.threadList tid with state := .LEFT } with
    leftThreads := b.leftThreads + 1
    trace := .left tid :: b.trace }

/-- The end of `join`, once the thread has its place in the list. -/
def enterList (parallelThreads : Nat) (rnd : Rand) (tid : Nat) (b : Barrier) : Option Barrier :=
  tryWakeNext parallelThreads rnd (b.setWaiting tid (.joined tid))

def join (parallelThreads : Nat) (rnd : Rand) (tid : Nat) (b : Barrier) : Option Barrier :=
  match b.states tid with
  | .OFFLINE => enterList parallelThreads rnd tid { b with runList := b.runList ++ [tid] }
  | .LEFT =>
    let b := { b with leftThreads := b.leftThreads - 1 }
    let lastIdx := (b.threadList tid).lastIdx
    if b.curThreadIdx > lastIdx then
      if b.runList[lastIdx]? = some tid then
        let b := { b with curThreadIdx := b.curThreadIdx - 1 }
        (b.swapEntries lastIdx b.curThreadIdx).bind (enterList parallelThreads rnd tid)
      else none
    else enterList parallelThreads rnd tid b
  | _ => none

def leave (parallelThreads : Nat) (rnd : Rand) (tid : Nat) (b : Barrier) : Option Barrier :=
  match b.states tid with
  | .RUNNING => tryWakeNext parallelThreads rnd
      { b.setLeft tid with runningThreads := b.runningThreads - 1 }
  | .WAITING => some (b.setLeft tid)
  | _ => none

def sync (parallelThreads : Nat) (rnd : Rand) (tid : Nat) (b : Barrier) : Option Barrier :=
  match b.states tid with
  | .RUNNING => tryWakeNext parallelThreads rnd
      { b.setWaiting tid (.synced tid) with runningThreads := b.runningThreads - 1 }
  | _ => none

end Barrier

/-- A call of a thread, with what its shuffle draws if it ends the phase. -/
inductive Op
  | join (rnd : Rand) (tid : Nat)
  | leave (rnd : Rand) (tid : Nat)
  | sync (rnd : Rand) (tid : Nat)

def step (parallelThreads : Nat) : Op → Barrier → Option Barrier
  | .join rnd tid => Barrier.join parallelThreads rnd tid
  | .leave rnd tid => Barrier.leave parallelThreads rnd tid
  | .sync rnd tid => Barrier.sync parallelThreads rnd tid

/-- The calls that a thread may make: it joins when it is not in the barrier or has left it, leaves
when it is in it, and syncs when it runs. -/
def Op.mayCall : Op → Barrier → Prop
  | .join _ tid, b => b.states tid = .LEFT ∨ b.states tid = .OFFLINE
  | .leave _ tid, b => b.states tid = .RUNNING ∨ b.states tid = .WAITING
  | .sync _ tid, b => b.states tid = .RUNNING

instance : ∀ (op : Op) (b : Barrier), Decidable (op.mayCall b)
  | .join .., _ | .leave .., _ => inferInstanceAs (Decidable (_ ∨ _))
  | .sync .., _ => inferInstanceAs (Decidable (_ = _))

end Doppelganger.Sched
