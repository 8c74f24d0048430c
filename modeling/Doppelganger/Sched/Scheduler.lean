import Doppelganger.Lib.Run
import Mathlib.Data.List.Perm.Basic
import Mathlib.Logic.Function.Basic
import Mathlib.Tactic.Common

/-! The scheduler of `scheduler.h`, of threads over contexts.  A step is what one thread does while
it holds the lock; an entry point that gives up the lock is made of several steps, and a thread in
between is `finishing` or at a `Place`.  The barrier is only there as the rule that a phase ends
when each scheduled thread waits in `sync`.  A step is `none` when an assertion fails or the
scheduler panics. -/

namespace Doppelganger.Scheduling

/-- The state of a thread. -/
inductive ThreadState
  | STARTED
  | RUNNING
  | OUT
  | BLOCKED
  | SLEEPING
  | QUEUED
deriving DecidableEq, Repr

inductive ContextState
  | IDLE
  | USED
deriving DecidableEq, Repr

/-- Where a thread is: in `bar.sync`, back from it, in `waitForContext`, or anywhere else. -/
inductive Place
  | elsewhere
  | inSync
  | synced
  | waiting
deriving DecidableEq, Repr

/-- How far a call of `finish` has come: it left the thread to a call of `leave`, or is back from
that call. -/
inductive Finishing
  | no
  | leaving
  | left
deriving DecidableEq, Repr

/-- `ThreadInfo`, with `place` and `finishing` as ghosts.  Threads are named by numbers, as their
addresses would: `gid`s come again. -/
structure ThreadInfo where
  gid : UInt32
  state : ThreadState
  cid : Nat
  handoffThread : Option Nat
  futexWord : UInt32
  needsJoin : Bool
  markedForSleep : Bool
  wakeupPhase : UInt64
  mask : List Bool
  fakeLeave : Bool
  place : Place
  finishing : Finishing
deriving DecidableEq, Repr

/-- `mask[cid]`. -/
def ThreadInfo.allows (t : ThreadInfo) (cid : Nat) : Bool := t.mask.getD cid false

structure ContextInfo where
  state : ContextState
  curThread : Option Nat
deriving DecidableEq, Repr

structure Scheduler where
  numCores : Nat
  schedQuantum : UInt64
  threads : Nat → Option ThreadInfo
  nextThread : Nat
  gidMap : UInt32 → Option Nat
  contexts : Nat → ContextInfo
  freeList : List Nat
  runQueue : List Nat
  outQueue : List Nat
  sleepQueue : List Nat
  curPhase : UInt64

namespace Scheduler

def init (numCores : Nat) (schedQuantum : UInt64) : Scheduler :=
  ⟨numCores, schedQuantum, fun _ => none, 0, fun _ => none, fun _ => ⟨.IDLE, none⟩,
    List.range numCores, [], [], [], 0⟩

variable (s : Scheduler)

def setThread (th : Nat) (t : ThreadInfo) : Scheduler :=
  { s with threads := Function.update s.threads th (some t) }

def setContext (cid : Nat) (ctx : ContextInfo) : Scheduler :=
  { s with contexts := Function.update s.contexts cid ctx }

/-- `owner` of a thread is not null. -/
def owned (th : Nat) : Bool := th ∈ s.runQueue ∨ th ∈ s.outQueue ∨ th ∈ s.sleepQueue

/-! ### Lists -/

/-- `InList::remove`, which asserts that the list is the owner. -/
def remove (x : Nat) (list : List Nat) : Option (List Nat) :=
  if x ∈ list then some (list.erase x) else none

def removeRun (th : Nat) : Option Scheduler :=
  (remove th s.runQueue).map fun q => { s with runQueue := q }

def removeOut (th : Nat) : Option Scheduler :=
  (remove th s.outQueue).map fun q => { s with outQueue := q }

def removeSleep (th : Nat) : Option Scheduler :=
  (remove th s.sleepQueue).map fun q => { s with sleepQueue := q }

def removeFree (cid : Nat) : Option Scheduler :=
  (remove cid s.freeList).map fun q => { s with freeList := q }

/-- `InList::push_back`, which asserts that there is no owner. -/
def pushRun (th : Nat) : Option Scheduler :=
  if s.owned th then none else some { s with runQueue := s.runQueue ++ [th] }

def pushOut (th : Nat) : Option Scheduler :=
  if s.owned th then none else some { s with outQueue := s.outQueue ++ [th] }

def pushFree (cid : Nat) : Option Scheduler :=
  if cid ∈ s.freeList then none else some { s with freeList := s.freeList ++ [cid] }

/-- `wakeupPhase` of a thread in the `sleepQueue`. -/
def wakeupOf (th : Nat) : UInt64 := ((s.threads th).map (·.wakeupPhase)).getD 0

/-- The ordered insert into `sleepQueue`, after the threads that wake up no later. -/
def insertSleep (th : Nat) : Option Scheduler :=
  if s.owned th then none
  else
    let before := s.sleepQueue.takeWhile fun cur => s.wakeupOf cur ≤ s.wakeupOf th
    some { s with sleepQueue := before ++ th :: s.sleepQueue.drop before.length }

/-! ### Contexts -/

def schedule (th cid : Nat) : Option Scheduler :=
  (s.threads th).bind fun t =>
    if (t.state = .STARTED ∨ t.state = .BLOCKED ∨ t.state = .QUEUED) ∧
        (s.contexts cid).state = .IDLE ∧ (s.contexts cid).curThread = none then
      some ((s.setThread th { t with state := .RUNNING, cid := cid }).setContext cid
        ⟨.USED, some th⟩)
    else none

def deschedule (th cid : Nat) (targetState : ThreadState) : Option Scheduler :=
  (s.threads th).bind fun t =>
    if (t.state = .RUNNING ∨ t.state = .OUT) ∧ (s.contexts cid).state = .USED ∧ cid = t.cid ∧
        (s.contexts cid).curThread = some th ∧
        (targetState = .BLOCKED ∨ targetState = .QUEUED ∨ targetState = .SLEEPING) then
      some ((s.setThread th { t with state := targetState }).setContext cid ⟨.IDLE, none⟩)
    else none

def wakeup (th : Nat) (needsJoin : Bool) : Option Scheduler :=
  (s.threads th).bind fun t =>
    if t.futexWord = 1 then
      some (s.setThread th { t with needsJoin := needsJoin, futexWord := 0 })
    else none

/-- `waitForContext` up to the wait. -/
def waitForContext (th : Nat) : Option Scheduler :=
  (s.threads th).map fun t => s.setThread th { t with futexWord := 1, place := .waiting }

/-- The context to take for a thread, with the lists that it was taken from. -/
def schedThread (th : Nat) : Option (Scheduler × Option Nat) :=
  (s.threads th).bind fun t =>
    if t.cid < s.numCores then
      if (s.contexts t.cid).state = .IDLE ∧ t.allows t.cid then
        (s.removeFree t.cid).map fun s => (s, some t.cid)
      else match s.freeList.find? t.allows with
        | some cid => (s.removeFree cid).map fun s => (s, some cid)
        | none =>
          -- Steal from the `outQueue`.
          match s.outQueue.find? fun outTh => (s.threads outTh).any fun o => t.allows o.cid with
          | some outTh => (s.threads outTh).bind fun o =>
            (s.removeOut outTh).bind fun s =>
              (s.deschedule outTh o.cid .BLOCKED).map fun s => (s, some o.cid)
          | none => some (s, none)
    else none

/-- The thread to take for a context, removed from the `runQueue`. -/
def schedContext (cid : Nat) : Option (Scheduler × Option Nat) :=
  match s.runQueue.find? fun th => (s.threads th).any fun t => t.allows cid with
  | some th => (s.removeRun th).map fun s => (s, some th)
  | none => some (s, none)

/-- The loop of `schedTick` over the `runQueue`; `avail` are the contexts without a new handoff. -/
def tickLoop : List Nat → List Nat → Scheduler → Option Scheduler
  | [], _, s => some s
  | th :: rest, avail, s =>
    if avail = [] then some s
    else (s.threads th).bind fun t =>
      match avail.find? t.allows with
      | some cid =>
        (s.contexts cid).curThread.bind fun victimTh => (s.threads victimTh).bind fun v =>
          ((s.setThread victimTh { v with handoffThread := some th }).removeRun th).bind
            (tickLoop rest (avail.erase cid))
      | none => tickLoop rest avail s

/-- `schedTick`, with the shuffled contexts. -/
def schedTick (avail : List Nat) : Option Scheduler := tickLoop s.runQueue avail s

/-! ### Entry points -/

def start (gid : UInt32) (mask : List Bool) : Option Scheduler :=
  if s.gidMap gid = none ∧ mask.length = s.numCores ∧ true ∈ mask then
    some { s with
      threads := Function.update s.threads s.nextThread
        (some ⟨gid, .STARTED, 0, none, 0, false, false, 0, mask, false, .elsewhere, .no⟩)
      nextThread := s.nextThread + 1
      gidMap := Function.update s.gidMap gid (some s.nextThread) }
  else none

/-- `leave`, of the thread that the context runs. -/
def leave (cid : Nat) : Option Scheduler :=
  (s.contexts cid).curThread.bind fun th => (s.threads th).bind fun t =>
    if t.state ≠ .RUNNING then none
    else if t.markedForSleep then
      ((s.setThread th { t with markedForSleep := false }).deschedule th cid .SLEEPING).bind
        fun s => (s.insertSleep th).bind fun s => (s.schedContext cid).bind fun (s, inTh) =>
          match inTh with
          | some inTh => (s.schedule inTh cid).bind (wakeup · inTh false)
          | none => s.pushFree cid
    else (s.schedContext cid).bind fun (s, inTh) =>
      match inTh with
      | some inTh => (s.deschedule th cid .BLOCKED).bind fun s =>
          (s.schedule inTh cid).bind (wakeup · inTh false)
      | none => (s.setThread th { t with state := .OUT }).pushOut th

/-- The rest of `finish`, when the thread needs no `leave`. -/
def finishRest (th : Nat) : Option Scheduler :=
  (s.threads th).bind fun t =>
    if t.state = .STARTED ∨ t.state = .OUT ∨ t.state = .BLOCKED ∨ t.state = .QUEUED then
      let out := if t.state = .QUEUED then s.removeRun th
        else if s.owned th then
          (s.removeOut th).bind fun s =>
            (s.deschedule th t.cid .BLOCKED).bind (pushFree · t.cid)
        else some s
      out.map fun s => { s with threads := Function.update s.threads th none }
    else none

/-- `finish`, up to a call of `leave`, or to its end. -/
def finish (gid : UInt32) : Option Scheduler :=
  (s.gidMap gid).bind fun th => (s.threads th).bind fun t =>
    let erased := { s with gidMap := Function.update s.gidMap gid none }
    if t.fakeLeave ∧ t.state ≠ .RUNNING then none
    else if t.fakeLeave ∨ t.state = .RUNNING then
      some (erased.setThread th { t with fakeLeave := false, finishing := .leaving })
    else (erased.setThread th { t with finishing := .left }).finishRest th

/-- The call of `leave` in `finish`. -/
def finishLeave (th : Nat) : Option Scheduler :=
  (s.threads th).bind fun t =>
    if t.finishing = .leaving ∧ (s.contexts t.cid).curThread = some th then
      (s.setThread th { t with finishing := .left }).leave t.cid
    else none

/-- `finish` after the call of `leave`. -/
def finishEnd (th : Nat) : Option Scheduler :=
  (s.threads th).bind fun t => if t.finishing = .left then s.finishRest th else none

/-- `join`, up to a wait. -/
def join (gid : UInt32) : Option Scheduler :=
  (s.gidMap gid).bind fun th => (s.threads th).bind fun t =>
    if t.place ≠ .elsewhere then none
    else if t.fakeLeave then
      if t.state = .RUNNING then some (s.setThread th { t with fakeLeave := false }) else none
    else if t.markedForSleep then none
    else if t.state = .OUT then (s.setThread th { t with state := .RUNNING }).removeOut th
    else
      let awake := if t.state = .SLEEPING then
          (s.removeSleep th).map (setThread · th { t with state := .BLOCKED })
        else if t.state = .BLOCKED ∨ t.state = .STARTED then some s
        else none
      awake.bind fun s => (s.schedThread th).bind fun (s, ctx) =>
        match ctx with
        | some cid => s.schedule th cid
        | none => (s.threads th).bind fun t =>
          ((s.setThread th { t with state := .QUEUED }).pushRun th).bind (waitForContext · th)

/-- A call of `leave` that no `finish` makes: by the thread itself, or by the watchdog for it. -/
def leaveSelf (cid : Nat) : Option Scheduler :=
  (s.contexts cid).curThread.bind fun th => (s.threads th).bind fun t =>
    if t.place = .elsewhere ∧ t.finishing = .no then s.leave cid else none

/-- `sync`, up to the wait in `bar.sync`. -/
def sync (cid : Nat) : Option Scheduler :=
  (s.contexts cid).curThread.bind fun th => (s.threads th).bind fun t =>
    if t.state = .RUNNING ∧ t.place = .elsewhere ∧ t.finishing = .no ∧
        t.markedForSleep = false then
      some (s.setThread th { t with place := .inSync })
    else none

/-- `sync` after `bar.sync`, up to another wait. -/
def syncEnd (th : Nat) : Option Scheduler :=
  (s.threads th).bind fun t =>
    if t.place ≠ .synced ∨ t.finishing ≠ .no then none
    else match t.handoffThread with
      | none => some (s.setThread th { t with place := .elsewhere })
      | some dst =>
        ((s.setThread th { t with handoffThread := none, place := .elsewhere }).deschedule th t.cid
          .QUEUED).bind fun s => (s.schedule dst t.cid).bind fun s => (s.wakeup dst false).bind
            fun s => (s.schedThread th).bind fun (s, ctx) =>
              match ctx with
              | some cid => s.schedule th cid
              | none => (s.pushRun th).bind (waitForContext · th)

/-- The end of `waitForContext`.  A wakeup never asks for a join. -/
def waitEnd (th : Nat) : Option Scheduler :=
  (s.threads th).bind fun t =>
    if t.place = .waiting ∧ t.futexWord = 0 ∧ t.finishing = .no then
      some (s.setThread th { t with place := .elsewhere })
    else none

/-- `syscallLeave`, when it does not just call `leave`. -/
def syscallLeave (cid : Nat) : Option Scheduler :=
  (s.contexts cid).curThread.bind fun th => (s.threads th).bind fun t =>
    if t.place = .elsewhere ∧ t.finishing = .no ∧ t.cid = cid ∧ t.state = .RUNNING ∧
        t.markedForSleep = false ∧ t.fakeLeave = false then
      some (s.setThread th { t with fakeLeave := true })
    else none

/-- `finishFakeLeave`, by the watchdog before it calls `leave` for the thread. -/
def finishFakeLeave (th : Nat) : Option Scheduler :=
  (s.threads th).bind fun t =>
    if t.fakeLeave ∧ t.state = .RUNNING then some (s.setThread th { t with fakeLeave := false })
    else none

def markForSleep (gid : UInt32) (wakeupPhase : UInt64) : Option Scheduler :=
  (s.gidMap gid).bind fun th => (s.threads th).bind fun t =>
    if t.place = .elsewhere ∧ t.markedForSleep = false then
      some (s.setThread th
        { t with markedForSleep := true, wakeupPhase := wakeupPhase, futexWord := 1 })
    else none

def notifySleepEnd (gid : UInt32) : Option Scheduler :=
  (s.gidMap gid).bind fun th => (s.threads th).bind fun t =>
    if t.markedForSleep then none
    else if t.state = .BLOCKED then some s
    else if t.state = .SLEEPING then
      (s.removeSleep th).map (setThread · th { t with state := .BLOCKED })
    else none

/-- The loop of `callback` over the `sleepQueue`. -/
def wakeSleepers : List Nat → Scheduler → Option Scheduler
  | [], s => some s
  | th :: rest, s =>
    (s.threads th).bind fun t =>
      if t.wakeupPhase ≤ s.curPhase then
        if t.wakeupPhase = s.curPhase then
          ((s.setThread th { t with state := .BLOCKED }).wakeup th false).bind fun s =>
            wakeSleepers rest { s with sleepQueue := rest }
        else none
      else some s

/-- The barrier lets the threads in `bar.sync` go on. -/
def release : Scheduler :=
  { s with threads := fun th => (s.threads th).map fun t =>
      if t.place = .inSync then { t with place := .synced } else t }

/-- Each scheduled thread waits in `sync`. -/
def allSynced : Bool := (List.range s.numCores).all fun cid =>
  (s.contexts cid).curThread.all fun th => (s.threads th).all fun t =>
    t.state != .RUNNING || t.place == .inSync

/-- The end of a phase: `callback`, with the contexts as `schedTick` would shuffle them. -/
def endPhase (avail : List Nat) : Option Scheduler :=
  if s.allSynced ∧ avail.Perm (List.range s.numCores) then
    (wakeSleepers s.sleepQueue { s.release with curPhase := s.curPhase + 1 }).bind fun s =>
      if s.runQueue ≠ [] ∧ s.curPhase % s.schedQuantum = 0 then s.schedTick avail else some s
  else none

end Scheduler

/-! ### Runs -/

/-- The steps.  `processCleanup` is `notifySleepEnd` and `finish` for each thread of a process,
wherever the thread is. -/
inductive Op
  | start (gid : UInt32) (mask : List Bool)
  | finish (gid : UInt32)
  | finishLeave (th : Nat)
  | finishEnd (th : Nat)
  | join (gid : UInt32)
  | leave (cid : Nat)
  | sync (cid : Nat)
  | syncEnd (th : Nat)
  | waitEnd (th : Nat)
  | syscallLeave (cid : Nat)
  | finishFakeLeave (th : Nat)
  | markForSleep (gid : UInt32) (wakeupPhase : UInt64)
  | notifySleepEnd (gid : UInt32)
  | endPhase (avail : List Nat)
deriving DecidableEq, Repr

def step : Op → Scheduler → Option Scheduler
  | .start gid mask, s => s.start gid mask
  | .finish gid, s => s.finish gid
  | .finishLeave th, s => s.finishLeave th
  | .finishEnd th, s => s.finishEnd th
  | .join gid, s => s.join gid
  | .leave cid, s => s.leaveSelf cid
  | .sync cid, s => s.sync cid
  | .syncEnd th, s => s.syncEnd th
  | .waitEnd th, s => s.waitEnd th
  | .syscallLeave cid, s => s.syscallLeave cid
  | .finishFakeLeave th, s => s.finishFakeLeave th
  | .markForSleep gid wakeupPhase, s => s.markForSleep gid wakeupPhase
  | .notifySleepEnd gid, s => s.notifySleepEnd gid
  | .endPhase avail, s => s.endPhase avail

/-- A thread that `finish` makes leave has no handoff to make. -/
def Ok : Op → Scheduler → Prop
  | .finishLeave th, s => ∀ t, s.threads th = some t → t.handoffThread = none
  | _, _ => True

instance (op : Op) (s : Scheduler) : Decidable (Ok op s) :=
  match op with
  | .finishLeave th =>
    decidable_of_iff ((s.threads th).all (·.handoffThread.isNone) = true) (by
      cases h : s.threads th <;> simp [Ok, h])
  | .start .. | .finish .. | .finishEnd .. | .join .. | .leave .. | .sync .. | .syncEnd ..
  | .waitEnd .. | .syscallLeave .. | .finishFakeLeave .. | .markForSleep ..
  | .notifySleepEnd .. | .endPhase .. => isTrue trivial

end Doppelganger.Scheduling
