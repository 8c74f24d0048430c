import Doppelganger.Core.BranchPredictor
import Doppelganger.Core.ReorderBuffer
import Doppelganger.Core.Window

/-! `OOOCore` of `ooo_core.cpp`: `bbl` simulates the uops of the previous basic block one after the
other, and then the fetches of the next one.  Cycles are natural numbers; the 32-bit differences of
decode cycles wrap.  The caches are a parameter.  The ghost `executed` has the uops that were
simulated, the last one first, and `recorded` the calls of the recorder. -/

namespace Doppelganger.Core

open Function

inductive UopType
  | GENERAL
  | LOAD
  | STORE
  | STORE_ADDR
  | FENCE
deriving DecidableEq, Repr

/-- A uop has up to two sources and two destinations; register 0 is none. -/
structure DynUop where
  rs0 : ℕ
  rs1 : ℕ
  rd0 : ℕ
  rd1 : ℕ
  lat : ℕ
  decCycle : ℕ
  type : UopType
  portMask : BitVec 8
  extraSlots : ℕ
deriving DecidableEq, Repr

/-- A `BblInfo`, with its `DynBbl`. -/
structure BblInfo where
  instrs : ℕ
  bytes : ℕ
  approxInstrs : ℕ
  uop : List DynUop
deriving DecidableEq, Repr

/-- The loads and stores of the L1 data cache and the loads of the L1 instruction cache, with how
many cycles after the request they answer, and the `contextSwitch` of both. -/
structure Caches (μ : Type*) where
  load : Address → ℕ → μ → ℕ × μ
  store : Address → ℕ → μ → ℕ × μ
  fetch : Address → ℕ → μ → ℕ × μ
  contextSwitch : μ → μ

structure CycleQueue where
  buf : ℕ → ℕ
  idx : ℕ

namespace CycleQueue

def start : CycleQueue := ⟨fun _ => 0, 0⟩

def minAllocCycle (s : CycleQueue) : ℕ := s.buf s.idx

def markLeave (SZ : ℕ) (leaveCycle : ℕ) (s : CycleQueue) : CycleQueue :=
  ⟨update s.buf s.idx leaveCycle, if s.idx + 1 = SZ then 0 else s.idx + 1⟩

end CycleQueue

structure FwdEntry where
  addr : Address
  storeCycle : ℕ
deriving DecidableEq, Repr

/-- What the core has computed for a uop: when it was decoded, left the uop queue and was issued,
whether that was after a stall of the register reads, when it wanted to be dispatched, was
dispatched and is committed, and the address of a load or store. -/
structure Executed where
  uop : DynUop
  addr : Address
  decoded : ℕ
  left : ℕ
  stalled : Bool
  issue : ℕ
  request : ℕ
  dispatch : ℕ
  commit : ℕ
deriving DecidableEq, Repr

/-- A call `cRec.record(curCycle, dispatchCycle, respCycle)`. -/
structure RecordCall where
  curCycle : ℕ
  dispatchCycle : ℕ
  respCycle : ℕ
deriving DecidableEq, Repr

/-- `curCycle` is the clock of `insWindow`, and `loads` and `stores` count the addresses. -/
structure OooCore (μ : Type*) where
  insWindow : WindowStructure
  regScoreboard : ℕ → ℕ
  prevBbl : Option BblInfo
  loadAddrs : List Address
  storeAddrs : List Address
  lastStoreCommitCycle : ℕ
  lastStoreAddrCommitCycle : ℕ
  loadQueue : ReorderBuffer
  storeQueue : ReorderBuffer
  rob : ReorderBuffer
  curCycleRFReads : ℕ
  curCycleIssuedUops : ℕ
  branchPred : BranchPredictor
  branchPc : Address
  branchTaken : Bool
  branchTakenNpc : Address
  branchNotTakenNpc : Address
  decodeCycle : ℕ
  uopQueue : CycleQueue
  instrs : ℕ
  uops : ℕ
  bbls : ℕ
  approxInstrs : ℕ
  mispredBranches : ℕ
  condBranches : ℕ
  fwdArray : ℕ → FwdEntry
  caches : μ
  executed : List Executed
  recorded : List RecordCall

def FETCH_STAGE : ℕ := 1
def DECODE_STAGE : ℕ := 4
def ISSUE_STAGE : ℕ := 7
def DISPATCH_STAGE : ℕ := 13
def L1D_LAT : ℕ := 4
def FETCH_BYTES_PER_CYCLE : ℕ := 16
def ISSUES_PER_CYCLE : ℕ := 4
def RF_READS_PER_CYCLE : ℕ := 3
def FWD_ENTRIES : Address := 32

/-- The entry of `fwdArray` for an address. -/
def fwdIdx (addr : Address) : ℕ := ((addr >>> 2) &&& (FWD_ENTRIES - 1)).toNat

namespace OooCore

variable {μ : Type*}

/-- The constructor. -/
def init (caches : μ) : OooCore μ where
  insWindow := .init 0
  regScoreboard := fun _ => 0
  prevBbl := none
  loadAddrs := []
  storeAddrs := []
  lastStoreCommitCycle := 0
  lastStoreAddrCommitCycle := 0
  loadQueue := .start
  storeQueue := .start
  rob := .start
  curCycleRFReads := 0
  curCycleIssuedUops := 0
  branchPred := .init
  branchPc := 0
  branchTaken := false
  branchTakenNpc := 0
  branchNotTakenNpc := 0
  decodeCycle := DECODE_STAGE
  uopQueue := .start
  instrs := 0
  uops := 0
  bbls := 0
  approxInstrs := 0
  mispredBranches := 0
  condBranches := 0
  fwdArray := fun _ => ⟨-1, 0⟩
  caches := caches
  executed := []
  recorded := []

def curCycle (s : OooCore μ) : ℕ := s.insWindow.curCycle

/-! ### The stages of a uop -/

/-- `insWindow.advancePos(curCycle)`, `n` times. -/
def advanceBy : ℕ → WindowStructure → Option WindowStructure
  | 0, w => some w
  | n + 1, w => (w.advancePos 1024).bind (advanceBy n)

/-- The counters of a cycle start again in a later one. -/
def restart (insWindow : WindowStructure) (s : OooCore μ) : OooCore μ :=
  { s with insWindow := insWindow, curCycleIssuedUops := 0, curCycleRFReads := 0 }

/-- `Decode stalls` -/
def decode (uop : DynUop) (prevDecCycle : ℕ) (s : OooCore μ) : Option (OooCore μ) :=
  let decDiff := (((uop.decCycle : ℤ) - prevDecCycle) % 2 ^ 32).toNat
  let s := { s with decodeCycle := max (s.decodeCycle + decDiff) s.uopQueue.minAllocCycle }
  (if s.curCycle < s.decodeCycle then
    (advanceBy ((s.decodeCycle - s.curCycle) % 2 ^ 32) s.insWindow).map fun w => s.restart w
  else some s).map fun s => { s with uopQueue := s.uopQueue.markLeave 28 s.curCycle }

/-- `Implement issue width limit` -/
def issue (s : OooCore μ) : Option (OooCore μ) :=
  (if ISSUES_PER_CYCLE ≤ s.curCycleIssuedUops then
    (s.insWindow.advancePos 1024).map fun w => s.restart w
  else some s).map fun s => { s with curCycleIssuedUops := s.curCycleIssuedUops + 1 }

/-- `curCycleRFReads` with the sources of a uop that are ready before the cycle. -/
def rfReads (c0 c1 : ℕ) (s : OooCore μ) : ℕ :=
  s.curCycleRFReads + (if c0 < s.curCycle then 1 else 0) + if c1 < s.curCycle then 1 else 0

/-- `RF read stalls`: whether there is one, and `MAX(c0, c1)`. -/
def readRegs (uop : DynUop) (s : OooCore μ) : Option (OooCore μ × Bool × ℕ) :=
  let s := { s with regScoreboard := update s.regScoreboard 0 s.curCycle }
  let c0 := s.regScoreboard uop.rs0
  let c1 := s.regScoreboard uop.rs1
  let reads := s.rfReads c0 c1
  if RF_READS_PER_CYCLE < reads then
    (s.insWindow.advancePos 1024).map fun w =>
      ({ s.restart w with curCycleRFReads := reads - RF_READS_PER_CYCLE }, true, max c0 c1)
  else some ({ s with curCycleRFReads := reads }, false, max c0 c1)

/-- The cycle at which a uop may be dispatched, with the `Model RAT + ROB + RS delay`. -/
def request (cOps : ℕ) (s : OooCore μ) : ℕ :=
  max cOps (max s.rob.minAllocCycle.toNat s.curCycle + (DISPATCH_STAGE - ISSUE_STAGE))

/-- `insWindow.schedule`, and the reset of the counters when the clock has advanced. -/
def dispatch (uop : DynUop) (request : ℕ) (s : OooCore μ) : Option (OooCore μ × ℕ) :=
  (s.insWindow.schedule 1024 36 request uop.portMask uop.extraSlots).map fun (w, dispatchCycle) =>
    (if s.curCycle < w.curCycle then s.restart w else { s with insWindow := w }, dispatchCycle)

/-- `l1d->load` and its record, unless the predicate of the load is false: the
`reqSatisfiedCycle`. -/
def loadData (c : Caches μ) (addr : Address) (dispatchCycle : ℕ) (s : OooCore μ) : OooCore μ × ℕ :=
  if addr ≠ -1 then
    let (lat, caches) := c.load addr dispatchCycle s.caches
    let reqSatisfiedCycle := dispatchCycle + lat + L1D_LAT
    ({ s with
      caches := caches
      recorded := ⟨s.curCycle, dispatchCycle, reqSatisfiedCycle⟩ :: s.recorded },
      reqSatisfiedCycle)
  else (s, dispatchCycle)

/-- `Enforce st-ld forwarding` -/
def forward (addr : Address) (reqSatisfiedCycle : ℕ) (s : OooCore μ) : ℕ :=
  if (s.fwdArray (fwdIdx addr)).addr = addr then
    max reqSatisfiedCycle (s.fwdArray (fwdIdx addr)).storeCycle
  else reqSatisfiedCycle

/-- `case UOP_LOAD`: when it is dispatched and committed, and its address. -/
def load (c : Caches μ) (dispatchCycle : ℕ) (s : OooCore μ) :
    Option (OooCore μ × ℕ × ℕ × Address) :=
  match s.loadAddrs with
  | [] => none
  | addr :: rest =>
    let dispatchCycle := max (s.lastStoreAddrCommitCycle + 1)
      (max s.loadQueue.minAllocCycle.toNat dispatchCycle)
    let (s, reqSatisfiedCycle) := s.loadData c addr dispatchCycle
    let commitCycle := s.forward addr reqSatisfiedCycle
    some ({ s with
      loadAddrs := rest
      loadQueue := s.loadQueue.markRetire 32 4 commitCycle.toUInt64 },
      dispatchCycle, commitCycle, addr)

/-- `case UOP_STORE` -/
def store (c : Caches μ) (dispatchCycle : ℕ) (s : OooCore μ) :
    Option (OooCore μ × ℕ × ℕ × Address) :=
  match s.storeAddrs with
  | [] => none
  | addr :: rest =>
    let dispatchCycle := max (s.lastStoreAddrCommitCycle + 1)
      (max s.storeQueue.minAllocCycle.toNat dispatchCycle)
    let (lat, caches) := c.store addr dispatchCycle s.caches
    let commitCycle := dispatchCycle + lat + L1D_LAT
    some ({ s with
      storeAddrs := rest
      caches := caches
      recorded := ⟨s.curCycle, dispatchCycle, commitCycle⟩ :: s.recorded
      fwdArray := update s.fwdArray (fwdIdx addr) ⟨addr, commitCycle⟩
      lastStoreCommitCycle := max s.lastStoreCommitCycle commitCycle
      storeQueue := s.storeQueue.markRetire 32 4 commitCycle.toUInt64 },
      dispatchCycle, commitCycle, addr)

/-- `LSU simulation`; the address of the other uops is 0. -/
def access (c : Caches μ) (uop : DynUop) (dispatchCycle : ℕ) (s : OooCore μ) :
    Option (OooCore μ × ℕ × ℕ × Address) :=
  let commitCycle := dispatchCycle + uop.lat
  match uop.type with
  | .GENERAL => some (s, dispatchCycle, commitCycle, 0)
  | .LOAD => s.load c dispatchCycle
  | .STORE => s.store c dispatchCycle
  | .STORE_ADDR =>
    some ({ s with lastStoreAddrCommitCycle := max s.lastStoreAddrCommitCycle commitCycle },
      dispatchCycle, commitCycle, 0)
  | .FENCE =>
    -- `force future load serialization`
    some ({ s with
      lastStoreAddrCommitCycle := max commitCycle
        (max s.lastStoreAddrCommitCycle (s.lastStoreCommitCycle + uop.lat)) },
      dispatchCycle, commitCycle, 0)

/-- `Mark retire at ROB` and `Record dependences`. -/
def retire (e : Executed) (s : OooCore μ) : OooCore μ :=
  { s with
    rob := s.rob.markRetire 128 4 e.commit.toUInt64
    regScoreboard := update (update s.regScoreboard e.uop.rd0 e.commit) e.uop.rd1 e.commit
    executed := e :: s.executed }

/-- An iteration of the loop over the uops, with its `commitCycle`. -/
def simulate (c : Caches μ) (uop : DynUop) (prevDecCycle : ℕ) (s : OooCore μ) :
    Option (OooCore μ × ℕ) :=
  (s.decode uop prevDecCycle).bind fun s =>
    let left := s.curCycle
    s.issue.bind fun s => (s.readRegs uop).bind fun (s, stalled, cOps) =>
      (s.dispatch uop (s.request cOps)).bind fun (s', scheduled) =>
        (s'.access c uop scheduled).map fun (s', dispatchCycle, commitCycle, addr) =>
          (s'.retire ⟨uop, addr, s.decodeCycle, left, stalled, s.curCycle, s.request cOps,
            dispatchCycle, commitCycle⟩, commitCycle)

/-- `Run dispatch/IW`: the loop, with `prevDecCycle` and `lastCommitCycle`. -/
def simulateAll (c : Caches μ) : List DynUop → ℕ → ℕ → OooCore μ → Option (OooCore μ × ℕ)
  | [], _, lastCommitCycle, s => some (s, lastCommitCycle)
  | uop :: rest, prevDecCycle, _, s =>
    (s.simulate c uop prevDecCycle).bind fun (s, commitCycle) =>
      simulateAll c rest uop.decCycle commitCycle s

/-! ### The frontend -/

/-- `l1i->load(fetchAddr, curCycle) - curCycle`, and its record. -/
def fetch (c : Caches μ) (fetchAddr : Address) (s : OooCore μ) : OooCore μ × ℕ :=
  let (fetchLat, caches) := c.fetch fetchAddr s.curCycle s.caches
  ({ s with
    caches := caches
    recorded := ⟨s.curCycle, s.curCycle, s.curCycle + fetchLat⟩ :: s.recorded }, fetchLat)

/-- `Simulate wrong-path fetches`, with the fetches that are left. -/
def wrongPath (c : Caches μ) (lineSize lastCommitCycle : ℕ) :
    ℕ → Address → ℕ → OooCore μ → OooCore μ
  | 0, _, _, s => s
  | n + 1, wrongPathAddr, reqCycle, s =>
    let (s, fetchLat) := s.fetch c wrongPathAddr
    let respCycle := reqCycle + fetchLat
    if lastCommitCycle < respCycle then s
    else wrongPath c lineSize lastCommitCycle n (wrongPathAddr + lineSize.toUInt64)
      (respCycle + lineSize / FETCH_BYTES_PER_CYCLE) s

/-- `Simulate branch prediction`: the `fetchCycle` after it. -/
def predict (c : Caches μ) (lineSize lastCommitCycle fetchCycle : ℕ) (s : OooCore μ) :
    OooCore μ × ℕ :=
  if s.branchPc ≠ 0 then
    let pred := s.branchPred.predicts .ooo s.branchPc
    let s := { s with
      condBranches := s.condBranches + 1
      branchPred := s.branchPred.update .ooo s.branchPc s.branchTaken }
    if s.branchTaken = pred then ({ s with branchPc := 0 }, fetchCycle)
    else
      let wrongPathAddr := if s.branchTaken then s.branchNotTakenNpc else s.branchTakenNpc
      let s := { s with mispredBranches := s.mispredBranches + 1 }
      let s := s.wrongPath c lineSize lastCommitCycle (5 * 64 / lineSize) wrongPathAddr fetchCycle
      ({ s with branchPc := 0 }, lastCommitCycle)
  else (s, fetchCycle)

/-- `Simulate current bbl ifetch`, with a bound on the lines that are left: the `fetchCycle` after
it. -/
def fetchLines (c : Caches μ) (lineSize : ℕ) (endAddr : Address) : ℕ → Address → ℕ → OooCore μ →
    OooCore μ × ℕ
  | 0, _, fetchCycle, s => (s, fetchCycle)
  | n + 1, fetchAddr, fetchCycle, s =>
    if fetchAddr < endAddr then
      let (s, fetchLat) := s.fetch c fetchAddr
      fetchLines c lineSize endAddr n (fetchAddr + lineSize.toUInt64) (fetchCycle + fetchLat) s
    else (s, fetchCycle)

/-- `Simulate frontend for branch pred + fetch of this BBL` -/
def frontend (c : Caches μ) (lineSize lastCommitCycle : ℕ) (bblAddr : Address) (bblInfo : BblInfo)
    (s : OooCore μ) : OooCore μ :=
  let fetchCycle := s.decodeCycle - (DECODE_STAGE - FETCH_STAGE)
  let (s, fetchCycle) := s.predict c lineSize lastCommitCycle fetchCycle
  let (s, fetchCycle) := s.fetchLines c lineSize (bblAddr + bblInfo.bytes.toUInt64) bblInfo.bytes
    bblAddr fetchCycle
  { s with decodeCycle := max (s.decodeCycle + 1) (fetchCycle + (DECODE_STAGE - FETCH_STAGE)) }

/-! ### The core -/

/-- `bbl`, with the assertions on the loads and stores. -/
def bbl (c : Caches μ) (lineSize : ℕ) (bblAddr : Address) (bblInfo : BblInfo) (s : OooCore μ) :
    Option (OooCore μ) :=
  match s.prevBbl with
  | none => some { s with prevBbl := some bblInfo, loadAddrs := [], storeAddrs := [] }
  | some prev =>
    (simulateAll c prev.uop 0 0 { s with prevBbl := some bblInfo }).bind
      fun (s, lastCommitCycle) =>
        if s.loadAddrs = [] ∧ s.storeAddrs = [] then
          some <| frontend c lineSize lastCommitCycle bblAddr bblInfo { s with
            instrs := s.instrs + prev.instrs
            uops := s.uops + prev.uop.length
            bbls := s.bbls + 1
            approxInstrs := s.approxInstrs + prev.approxInstrs }
        else none

/-- `advance`, which `join`, `cSimStart` and `cSimEnd` call. -/
def advance (targetCycle : ℕ) (s : OooCore μ) : Option (OooCore μ) :=
  if s.curCycle < targetCycle then
    (s.insWindow.longAdvance 1024 targetCycle).map fun w =>
      { s.restart w with decodeCycle := s.decodeCycle + (targetCycle - s.curCycle) }
  else none

end OooCore

/-- The calls of the instrumentation, of the scheduler and of the contention simulation. -/
inductive CoreOp
  | load (addr : Address)
  | store (addr : Address)
  | predFalseMemOp
  | branch (pc : Address) (taken : Bool) (takenNpc notTakenNpc : Address)
  | bbl (bblAddr : Address) (bblInfo : BblInfo)
  | deschedule
  | advance (targetCycle : ℕ)

/-- The arrays of addresses have 256 entries. -/
def coreStep {μ : Type*} (c : Caches μ) (lineSize : ℕ) : CoreOp → OooCore μ → Option (OooCore μ)
  | .load addr, s =>
    if s.loadAddrs.length < 256 then some { s with loadAddrs := s.loadAddrs ++ [addr] } else none
  | .store addr, s =>
    if s.storeAddrs.length < 256 then some { s with storeAddrs := s.storeAddrs ++ [addr] }
    else none
  | .predFalseMemOp, s =>
    if s.loadAddrs.length < 256 then some { s with loadAddrs := s.loadAddrs ++ [-1] } else none
  | .branch pc taken takenNpc notTakenNpc, s =>
    some { s with
      branchPc := pc
      branchTaken := taken
      branchTakenNpc := takenNpc
      branchNotTakenNpc := notTakenNpc }
  | .bbl bblAddr bblInfo, s => s.bbl c lineSize bblAddr bblInfo
  | .deschedule, s => some { s with prevBbl := none, caches := c.contextSwitch s.caches }
  | .advance targetCycle, s => s.advance targetCycle

end Doppelganger.Core
