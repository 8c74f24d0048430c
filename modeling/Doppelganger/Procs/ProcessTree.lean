import Mathlib.Logic.Function.Basic
import Mathlib.Tactic.Common

/-! The process tree, of `process_tree.h` and `process_tree.cpp`: processes start, create others as
they run, enter and leave fast-forward, and end.  An operation is `none` when it panics, fails an
assertion or is one that the process cannot make. -/

namespace Doppelganger.Procs

inductive SyncedFastForwardMode where
  | always
  | multiprocess
  | never
deriving DecidableEq, Repr

inductive ProcExitStatus where
  | running
  | exited
  | restartMe
deriving DecidableEq, Repr

/-- A `ProcessTreeNode`, with its children by `procIdx`. -/
structure ProcessTreeNode where
  children : List Nat
  curChildren : Nat
  started : Bool
  inFastForward : Bool
  restartsLeft : UInt32
  syncedFastForward : SyncedFastForwardMode
deriving DecidableEq, Repr

/-- The global state that processes share.  A null entry of `procArray` is `none`. -/
structure GlobSimInfo where
  lineSize : UInt32
  numProcs : UInt32
  procArray : Nat → Option ProcessTreeNode
  procExited : Nat → ProcExitStatus
  globalActiveProcs : UInt32
  globalFFProcs : UInt32
  globalSyncedFFProcs : UInt32
  terminationConditionMet : Bool

namespace GlobSimInfo

def setNode (p : Nat) (node : ProcessTreeNode) (zinfo : GlobSimInfo) : GlobSimInfo :=
  { zinfo with procArray := Function.update zinfo.procArray p (some node) }

def setExited (p : Nat) (status : ProcExitStatus) (zinfo : GlobSimInfo) : GlobSimInfo :=
  { zinfo with procExited := Function.update zinfo.procExited p status }

end GlobSimInfo

/-- `getSyncedFastForward` with `numProcs` processes. -/
def ProcessTreeNode.getSyncedFastForward (numProcs : UInt32) (node : ProcessTreeNode) : Bool :=
  node.syncedFastForward = .always || (node.syncedFastForward = .multiprocess && numProcs > 1)

/-- The amount by which an entry or an exit changes `globalSyncedFFProcs`. -/
def syncedCount (numProcs : UInt32) (node : ProcessTreeNode) : UInt32 :=
  if node.getSyncedFastForward numProcs then 1 else 0

def enterFastForward (p : Nat) (zinfo : GlobSimInfo) : Option GlobSimInfo :=
  (zinfo.procArray p).bind fun node =>
    if node.inFastForward then none
    else some { zinfo.setNode p { node with inFastForward := true } with
      globalSyncedFFProcs := zinfo.globalSyncedFFProcs + syncedCount zinfo.numProcs node
      globalFFProcs := zinfo.globalFFProcs + 1 }

def exitFastForward (p : Nat) (zinfo : GlobSimInfo) : Option GlobSimInfo :=
  (zinfo.procArray p).bind fun node =>
    if node.inFastForward then
      some { zinfo.setNode p { node with inFastForward := false } with
        globalSyncedFFProcs := zinfo.globalSyncedFFProcs - syncedCount zinfo.numProcs node
        globalFFProcs := zinfo.globalFFProcs - 1 }
    else none

/-- `notifyStart`, which does nothing when the process is already started (an exec or a restart). -/
def notifyStart (p : Nat) (zinfo : GlobSimInfo) : Option GlobSimInfo :=
  (zinfo.procArray p).bind fun node =>
    if node.started then some zinfo
    else if (p ≠ 0 ∧ zinfo.globalActiveProcs = 0) ∨ (p = 0 ∧ zinfo.globalActiveProcs ≠ 0) then none
    else
      let zinfo := { zinfo.setNode p { node with started := true } with
        globalActiveProcs := zinfo.globalActiveProcs + 1 }
      if node.inFastForward then
        some { zinfo with
          globalSyncedFFProcs := zinfo.globalSyncedFFProcs + syncedCount zinfo.numProcs node
          globalFFProcs := zinfo.globalFFProcs + 1 }
      else some zinfo

def notifyEnd (p : Nat) (zinfo : GlobSimInfo) : Option GlobSimInfo :=
  (zinfo.procArray p).bind fun node =>
    (if node.inFastForward then exitFastForward p zinfo else some zinfo).bind fun zinfo =>
      if zinfo.procExited p ≠ .running then none
      else if node.restartsLeft ≠ 0 ∧ !zinfo.terminationConditionMet then
        some ((zinfo.setNode p { node with
          inFastForward := false, restartsLeft := node.restartsLeft - 1 }).setExited p .restartMe)
      else
        some { zinfo.setExited p .exited with globalActiveProcs := zinfo.globalActiveProcs - 1 }

/-- `getNextChild`: the `procIdx` of the next child, which is created when there is none left. -/
def getNextChild (p : Nat) (zinfo : GlobSimInfo) : Option (Nat × GlobSimInfo) :=
  (zinfo.procArray p).bind fun node =>
    if node.curChildren = node.children.length then
      let childProcIdx := zinfo.numProcs
      if childProcIdx ≥ zinfo.lineSize then none
      else
        let child := { node with started := false, curChildren := 0, children := [] }
        let parent := { node with
          children := node.children ++ [childProcIdx.toNat], curChildren := node.curChildren + 1 }
        some (childProcIdx.toNat, (({ zinfo with numProcs := zinfo.numProcs + 1 }).setNode p
          parent).setNode childProcIdx.toNat child)
    else
      node.children[node.curChildren]?.map fun child =>
        (child, zinfo.setNode p { node with curChildren := node.curChildren + 1 })

/-- Process `p` has been started and has not ended. -/
def isLive (p : Nat) (zinfo : GlobSimInfo) : Bool :=
  (zinfo.procArray p).any fun node => node.started && zinfo.procExited p = .running

/-- What happens to the processes.  `ffiFire` is the event that a process queued to enter
fast-forward at the end of a phase, which does not look whether the process is still there. -/
inductive ProcOp where
  | start (p : Nat)
  | fork (p : Nat)
  | enter (p : Nat)
  | ffiFire (p : Nat)
  | exit (p : Nat)
  | finish (p : Nat)
  | restart (p : Nat)
  | terminate
deriving DecidableEq, Repr

def stepProc : ProcOp → GlobSimInfo → Option GlobSimInfo
  | .start p, zinfo => notifyStart p zinfo
  | .fork p, zinfo => if isLive p zinfo then (getNextChild p zinfo).map Prod.snd else none
  | .enter p, zinfo => if isLive p zinfo then enterFastForward p zinfo else none
  | .ffiFire p, zinfo =>
    if (zinfo.procArray p).any ProcessTreeNode.started then enterFastForward p zinfo else none
  | .exit p, zinfo => if isLive p zinfo then exitFastForward p zinfo else none
  | .finish p, zinfo =>
    if (zinfo.procArray p).any ProcessTreeNode.started then notifyEnd p zinfo else none
  | .restart p, zinfo =>
    if zinfo.procExited p = .restartMe then some (zinfo.setExited p .running) else none
  | .terminate, zinfo => some { zinfo with terminationConditionMet := true }

/-- What the configuration says about a process. -/
structure ProcessConfig where
  children : List Nat
  startFastForwarded : Bool
  restarts : UInt32
  syncedFastForward : SyncedFastForwardMode

def ProcessConfig.node (config : ProcessConfig) : ProcessTreeNode where
  children := config.children
  curChildren := 0
  started := false
  inFastForward := config.startFastForwarded
  restartsLeft := config.restarts
  syncedFastForward := config.syncedFastForward

/-- The state that `CreateProcessTree` leaves, for the processes of the configuration in the order
of their `procIdx`. -/
def createProcessTree (lineSize : UInt32) (configs : List ProcessConfig) : Option GlobSimInfo :=
  if configs.length > lineSize.toNat then none
  else some
    { lineSize := lineSize
      numProcs := UInt32.ofNat configs.length
      procArray := fun p => configs[p]?.map ProcessConfig.node
      procExited := fun _ => .running
      globalActiveProcs := 0
      globalFFProcs := 0
      globalSyncedFFProcs := 0
      terminationConditionMet := false }

end Doppelganger.Procs
