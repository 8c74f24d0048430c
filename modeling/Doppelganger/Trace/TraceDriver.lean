import Doppelganger.Lib.Run
import Doppelganger.Mesi.Requests
import Doppelganger.Trace.AccessTrace
import Mathlib.Logic.Function.Basic

/-! The trace driver, of `trace_driver.h` and `trace_driver.cpp`: it replays the records of a trace
as the requests of proxies, which are the children of one cache, the parent.  The parent runs the
MESI controllers, and its invalidations of a proxy are calls of `TraceDriver::invalidate`.  The
flags of the driver's requests are 0.  An operation is `none` when an assertion of the driver or of
the controllers fails. -/

namespace Doppelganger.Trace

open Mesi MESIState

/-- A line at the parent: the caches above it, its state, its directory entry, and for each child
the state with which `cStore` has the line, `I` when it does not have it. -/
structure ParentLine where
  ancestors : List Frame
  state : MESIState
  entry : Entry
  cStore : List MESIState

/-- The line in the parent, with a terminal cache for each proxy. -/
def ParentLine.node (line : ParentLine) : Node :=
  .cache line.state line.entry (line.cStore.map .terminal)

/-! ### Invalidations -/

/-- `TraceDriver::invalidate`: what it leaves in the `cStore`, and `*reqWriteback`, which it
overwrites. -/
def invalidate (type : InvType) (it : MESIState) : Option (MESIState × Bool) :=
  if it = I then none else some (if type = .INVX then S else I, it == M)

/-- The loop of `MESITopCC::sendInvalidates` over the proxies. -/
def invProxies (type : InvType) :
    List Bool → List MESIState → Bool → Option (List Bool × List MESIState × Nat × Bool)
  | sharers, [], wb => some (sharers, [], 0, wb)
  | [], s :: cs, wb => some ([], s :: cs, 0, wb)
  | true :: bs, s :: cs, _ =>
    (invalidate type s).bind fun (s, wb) =>
      (invProxies type bs cs wb).map fun (bs, cs, sentInvs, wb) =>
        (decide (type ≠ .INV) :: bs, s :: cs, sentInvs + 1, wb)
  | false :: bs, s :: cs, wb =>
    (invProxies type bs cs wb).map fun (bs, cs, sentInvs, wb) =>
      (false :: bs, s :: cs, sentInvs, wb)

/-- `MESITopCC::sendInvalidates` of the parent. -/
def sendInvalidates (type : InvType) (e : Entry) (cs : List MESIState) (reqWriteback : Bool) :
    Option (Entry × List MESIState × Bool) :=
  if type = .INVX ∧ e.isExclusive = false then some (e, cs, reqWriteback)
  else if e.isEmpty then some (e, cs, reqWriteback)
  else (invProxies type e.sharers cs reqWriteback).bind fun (sharers, cs, sentInvs, reqWriteback) =>
    if sentInvs = e.numSharers then
      if type = .INV then some (⟨0, sharers, e.exclusive⟩, cs, reqWriteback)
      else if e.exclusive = true ∧ e.numSharers = 1 then
        some (⟨e.numSharers, sharers, false⟩, cs, reqWriteback)
      else none
    else none

/-! ### Accesses -/

/-- `MESITopCC::processAccess` of the parent: the entry, the `cStore`s, `*childState` and
`*inducedWriteback`. -/
def tccProcessAccess (type : AccessType) (childId : Nat) (haveExclusive : Bool) (e : Entry)
    (cs : List MESIState) : Option (Entry × List MESIState × MESIState × Bool) :=
  let remove := if e.sharer childId then
      some (⟨e.numSharers - 1, e.sharers.set childId false, e.exclusive⟩, cs, I, false)
    else none
  match type with
  | .PUTX => if e.isExclusive then remove else none
  | .PUTS => remove
  | .GETS =>
    if e.isEmpty ∧ haveExclusive then some (⟨1, e.sharers.set childId true, true⟩, cs, E, false)
    else if e.sharer childId then none
    else
      let downgraded := if e.isExclusive then sendInvalidates .INVX e cs false
        else some (e, cs, false)
      downgraded.bind fun (e, cs, wb) =>
        if e.isExclusive then none
        else some (⟨e.numSharers + 1, e.sharers.set childId true, false⟩, cs, S, wb)
  | .GETX =>
    if haveExclusive then
      let upgraded := if e.sharer childId then
          if e.isExclusive then none
          else some ⟨e.numSharers - 1, e.sharers.set childId false, e.exclusive⟩
        else some e
      upgraded.bind fun e =>
        (sendInvalidates .INV e cs false).bind fun (e, cs, wb) =>
          if e.numSharers + 1 = 1 then
            some (⟨e.numSharers + 1, e.sharers.set childId true, true⟩, cs, M, wb)
          else none
    else none

/-- The flags of the requests. -/
def noFlags : Flags := ⟨false, false⟩

namespace ParentLine

/-- `MESICC::processAccess` of the parent on a request of a proxy, with the state that the request
comes back with. -/
def access (type : AccessType) (childId : Nat) (line : ParentLine) :
    Option (ParentLine × MESIState) :=
  if (type = .PUTS ∨ type = .PUTX) ∧ line.state = I then none
  else (bccProcessAccess type line.ancestors line.node
      (Mesi.access type noFlags line.ancestors)).bind fun (fs, node) =>
    (tccProcessAccess type childId (isExclusive node.state) line.entry line.cStore).bind
      fun (e, cs, childState, lowerLevelWriteback) =>
        if lowerLevelWriteback then
          (processWritebackOnAccess node.state).map fun s => (⟨fs, s, e, cs⟩, childState)
        else some (⟨fs, node.state, e, cs⟩, childState)

/-- `MESICC::processEviction` of the parent, with the request that it sends up. -/
def evict (line : ParentLine) : Option (ParentLine × Option AccessType) :=
  (sendInvalidates .INV line.entry line.cStore false).bind fun (e, cs, lowerLevelWriteback) =>
    (bccProcessEviction lowerLevelWriteback line.ancestors
      (.cache line.state e (cs.map .terminal))).map fun (fs, node, request) =>
        (⟨fs, node.state, e, cs⟩, request)

/-- `MESICC::processInv` of the parent, with `*reqWriteback`. -/
def processInv (type : InvType) (line : ParentLine) : Option (ParentLine × Bool) :=
  -- `MESITopCC::processInval` sends nothing on a FWD.
  let top := if type = .FWD then some (line.entry, line.cStore, false)
    else sendInvalidates type line.entry line.cStore false
  top.bind fun (e, cs, wb) =>
    (bccProcessInval type line.state wb).map fun (s, wb) =>
      ({ line with state := s, entry := e, cStore := cs }, wb)

end ParentLine

/-! ### The driver -/

/-- A request of the driver, without its cycle. -/
structure MemReq where
  lineAddr : Address
  type : AccessType
  childId : Nat
  initialState : MESIState
deriving DecidableEq, Repr

/-- The driver over its parent.  The ghost `requests` has all the requests made so far. -/
structure TraceDriver where
  numChildren : Nat
  playPuts : Bool
  playAllGets : Bool
  lines : Address → ParentLine
  requests : List MemReq

namespace TraceDriver

/-- `children[childId].cStore`, where a line that is not in it is in state `I`. -/
def cStore (d : TraceDriver) (childId : Nat) (lineAddr : Address) : MESIState :=
  (d.lines lineAddr).cStore.getD childId I

/-- The driver without lines, below the ancestors of its parent. -/
def init (numChildren : Nat) (playPuts playAllGets : Bool) (ancestors : Address → List Frame) :
    TraceDriver :=
  ⟨numChildren, playPuts, playAllGets, fun a => ⟨ancestors a, I,
    ⟨0, List.replicate numChildren false, false⟩, List.replicate numChildren I⟩, []⟩

def setLine (lineAddr : Address) (line : ParentLine) (d : TraceDriver) : TraceDriver :=
  { d with lines := Function.update d.lines lineAddr line }

/-- `parent->access(req)`. -/
def access (type : AccessType) (acc : AccessRecord) (initialState : MESIState) (d : TraceDriver) :
    Option (TraceDriver × MESIState) :=
  ((d.lines acc.lineAddr).access type acc.childId.toNat).map fun (line, state) =>
    ({ d.setLine acc.lineAddr line with
      requests := d.requests ++ [⟨acc.lineAddr, type, acc.childId.toNat, initialState⟩] }, state)

/-- `cStore[acc.lineAddr] = state`; a line that is erased is in state `I`. -/
def store (acc : AccessRecord) (state : MESIState) (d : TraceDriver) : TraceDriver :=
  let line := d.lines acc.lineAddr
  d.setLine acc.lineAddr { line with cStore := line.cStore.set acc.childId.toNat state }

/-- A PUT of a line that the child has. -/
def put (type : AccessType) (acc : AccessRecord) (d : TraceDriver) : Option TraceDriver :=
  (d.access type acc (d.cStore acc.childId.toNat acc.lineAddr)).bind fun (d, state) =>
    if state = I then some (d.store acc I) else none

def get (acc : AccessRecord) (initialState : MESIState) (d : TraceDriver) : Option TraceDriver :=
  (d.access acc.type acc initialState).bind fun (d, state) =>
    if state ≠ I then some (d.store acc state) else none

/-- `TraceDriver::executeAccess`, without latencies. -/
def executeAccess (acc : AccessRecord) (d : TraceDriver) : Option TraceDriver :=
  if acc.childId.toNat < d.numChildren then
    let it := d.cStore acc.childId.toNat acc.lineAddr
    match acc.type with
    | .PUTS | .PUTX => if d.playPuts = false ∨ it = I then some d else d.put acc.type acc
    | .GETS | .GETX =>
      if it = I ∨ it = S ∧ acc.type = .GETX then d.get acc it
      else if d.playAllGets then
        (d.put (if it = M then .PUTX else .PUTS) acc).bind (get acc I)
      else some d
  else none

end TraceDriver

/-! ### Runs -/

/-- The replay of a record, and what may happen between records: the parent evicts the line, or
gives it a slot whose entry keeps the `exclusive` flag of the line that was there; an invalidation
comes from above; the ancestors change. -/
inductive ReplayOp
  | record (acc : AccessRecord)
  | evict (lineAddr : Address)
  | postinsert (lineAddr : Address) (exclusive : Bool)
  | invalidate (lineAddr : Address) (type : InvType) (ancestors : List Frame)
  | ancestors (lineAddr : Address) (ancestors : List Frame)

open TraceDriver in
def step : ReplayOp → TraceDriver → Option TraceDriver
  | .record acc, d => d.executeAccess acc
  | .evict a, d => (d.lines a).evict.map fun (line, _) => d.setLine a line
  | .postinsert a exclusive, d =>
    let line := d.lines a
    if line.state = I ∧ line.entry.isEmpty then
      some (d.setLine a { line with entry := { line.entry with exclusive := exclusive } })
    else some d
  | .invalidate a type fs, d =>
    ((d.lines a).processInv type).map fun (line, _) => d.setLine a { line with ancestors := fs }
  | .ancestors a fs, d => some (d.setLine a { d.lines a with ancestors := fs })

/-- No PUTX record meets a line that its child shares, and no PUTS record one that it has dirty. -/
def Reconciled (acc : AccessRecord) (d : TraceDriver) : Prop :=
  d.playPuts = true →
    (acc.type = .PUTX → d.cStore acc.childId.toNat acc.lineAddr ≠ S) ∧
    (acc.type = .PUTS → d.cStore acc.childId.toNat acc.lineAddr ≠ M)

instance (acc : AccessRecord) (d : TraceDriver) : Decidable (Reconciled acc d) :=
  inferInstanceAs (Decidable (_ → _))

/-- The record is one of the trace and can be replayed; the caches above the parent send what its
state allows, and keep their own directories. -/
def Ok : ReplayOp → TraceDriver → Prop
  | .record acc, d => acc.childId.toNat < d.numChildren ∧ Reconciled acc d
  | .evict _, _ => True
  | .postinsert _ _, _ => True
  | .invalidate a type fs, d => accepts type (d.lines a).state = true ∧ Above fs (after type)
  | .ancestors a fs, d => Above fs (d.lines a).state

instance (acc : AccessRecord) (d : TraceDriver) : Decidable (Ok (.record acc) d) :=
  inferInstanceAs (Decidable (_ ∧ _))

end Doppelganger.Trace
