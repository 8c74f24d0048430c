import Doppelganger.Trace.AccessTrace
import Mathlib.Logic.Function.Basic

/-! `sorttrace.cpp`, which merges the accesses of the children of a trace.  The two loops have fuel
for as many rounds as there are records: a round reads or writes at least one.  A step is `none`
when an assertion fails, when it is out of bounds, or when it divides by zero. -/

namespace Doppelganger.Trace.SortTrace

open Function

/-- The two percentages that it prints. -/
def printProgress (read written total : Nat) : Option (Nat × Nat) :=
  if total = 0 then none else some (read * 100 / total, written * 100 / total)

/-- An entry of `heads`: the negative cycle, and the child. -/
abbrev Head := Int64 × UInt32

def Head.less (a b : Head) : Bool := a.1 < b.1 || (a.1 == b.1 && a.2 < b.2)

/-- `make_pair(-acc.reqCycle, acc.childId)` -/
def headOf (acc : AccessRecord) : Head := ((-acc.reqCycle).toInt64, acc.childId)

/-- `heads.top()` -/
def top : List Head → Option Head
  | [] => none
  | head :: heads => some (heads.foldl (fun a b => if a.less b then b else a) head)

/-- The variables of `main`.  `accs` has `numChildren` entries. -/
structure State where
  tr : AccessTraceReader
  tw : AccessTraceWriter
  numChildren : UInt32
  accs : UInt32 → Option (List AccessRecord)
  heads : List Head
  readRecords : Nat
  writtenRecords : Nat
  totalRecords : Nat

namespace State

variable (s : State)

/-- `printProgress` after each 1024 records. -/
def report (count : Nat) : Option State :=
  if count % 1024 = 0 then
    (printProgress s.readRecords s.writtenRecords s.totalRecords).map fun _ => s
  else some s

/-- The record goes to the accesses of its child. -/
def addRecord (acc : AccessRecord) : Option State :=
  let child := acc.childId
  if child < s.numChildren then
    match s.accs child with
    | none => some { s with
        accs := update s.accs child (some [acc])
        heads := s.heads ++ [headOf acc] }
    | some queue => some { s with accs := update s.accs child (some (queue ++ [acc])) }
  else none

def readRecord : Option State :=
  s.tr.read.bind fun (acc, tr) =>
    let s := { s with tr := tr, readRecords := s.readRecords + 1 }
    (s.report s.readRecords).bind fun s => s.addRecord acc

/-- The loop that reads at least a few accesses. -/
def readBatch : Nat → State → Option State
  | 0, s => some s
  | n + 1, s => s.readRecord.bind fun s => if s.tr.empty then some s else readBatch n s

def writeRecord : Option State :=
  (top s.heads).bind fun next =>
    let child := next.2
    match s.accs child with
    | some (acc :: queue) =>
      (s.tw.write acc).bind fun tw =>
        let s := { s with tw := tw, writtenRecords := s.writtenRecords + 1 }
        (s.report s.writtenRecords).map fun s =>
          let heads := s.heads.erase next
          match queue with
          | [] => { s with accs := update s.accs child none, heads := heads }
          | acc :: _ => { s with
              accs := update s.accs child (some queue)
              heads := heads ++ [headOf acc] }
    | _ => none

/-- The loop that writes while each child has a head, or no record is left to read. -/
def writeRecords : Nat → State → Option State
  | 0, _ => none
  | fuel + 1, s =>
    if s.heads.length = s.numChildren.toNat ∨ s.tr.empty ∧ s.heads ≠ [] then
      s.writeRecord.bind (writeRecords fuel)
    else some s

/-- The body of the outer loop. -/
def round (fuel : Nat) : Option State :=
  (if s.tr.empty = false ∧ s.heads.length < s.numChildren.toNat then readBatch 1024 s
    else some s).bind fun s =>
      if s.heads.length ≤ s.numChildren.toNat then writeRecords fuel s else none

/-- The outer loop. -/
def rounds (writes : Nat) : Nat → State → Option State
  | 0, _ => none
  | fuel + 1, s =>
    if s.tr.empty = false ∨ s.heads ≠ [] then (s.round writes).bind (rounds writes fuel)
    else some s

/-- What comes after the loop. -/
def finish : Option TraceFile :=
  (printProgress s.readRecords s.writtenRecords s.totalRecords).bind fun _ =>
    if s.readRecords = s.writtenRecords ∧ s.readRecords = s.totalRecords then
      (s.tw.dump false).map (·.file)
    else none

end State

/-- What comes before the loop. -/
def start (file : TraceFile) : Option State :=
  (AccessTraceReader.init file).map fun tr =>
    ⟨tr, .init tr.numChildren, tr.numChildren, fun _ => none, [], 0, 0, tr.numRecords⟩

/-- `main`, from the input trace to the output trace. -/
def main (file : TraceFile) : Option TraceFile :=
  (start file).bind fun s =>
    (s.rounds (s.totalRecords + 1) (s.totalRecords + 1)).bind State.finish

end Doppelganger.Trace.SortTrace
