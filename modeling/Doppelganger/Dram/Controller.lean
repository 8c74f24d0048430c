import Doppelganger.Types
import Mathlib.Algebra.Group.Nat.Defs
import Mathlib.Logic.Function.Basic

/-! The memory controller of `ddr_mem.cpp`: its parameters, queues, banks and timing constraints,
and how it schedules requests.  Statistics are left out.  Cycles are natural numbers: the clock
conversions of the source are good for the 40 bits of system cycles that it documents. -/

namespace Doppelganger.Dram

/-! ### Parameters -/

/-- The technologies that `initTech` knows. -/
inductive Tech
  | DDR3_1333_CL10
  | DDR3_1066_CL7
  | DDR3_1066_CL8
deriving DecidableEq, Repr

/-- The timing parameters of a device, in memory cycles, and its frequency. -/
structure Timing where
  tBL : Nat
  tCL : Nat
  tRCD : Nat
  tRTP : Nat
  tRP : Nat
  tRRD : Nat
  tRAS : Nat
  tFAW : Nat
  tWTR : Nat
  tWR : Nat
  tRFC : Nat
  tREFI : Nat
  memFreqKHz : Nat
deriving Repr

/-- The parameters for 64-byte lines; `memFreqKHz` is for a `tCK` of 1.5 ns or 1.875 ns. -/
def Tech.timing : Tech → Timing
  | .DDR3_1333_CL10 => ⟨4, 10, 10, 5, 10, 4, 24, 20, 5, 10, 74, 5200, 666666⟩
  | .DDR3_1066_CL7 => ⟨4, 7, 7, 4, 7, 4, 18, 18, 4, 7, 59, 4160, 533333⟩
  | .DDR3_1066_CL8 => ⟨4, 8, 8, 4, 8, 4, 20, 20, 4, 8, 59, 4160, 533333⟩

def initTech (tech : Tech) (lineSize : UInt32) : Option Timing :=
  let t := tech.timing
  if isPow2 lineSize.toNat ∧ 64 ≤ lineSize then
    some { t with tBL := (lineSize * UInt32.ofNat t.tBL / 64).toNat }
  else if lineSize = 32 then some { t with tBL := t.tBL / 2 }
  else none

inductive Field
  | col
  | rank
  | bank
deriving DecidableEq, Repr

structure AddrMap where
  colShift : Nat
  colMask : Nat
  rankShift : Nat
  rankMask : Nat
  bankShift : Nat
  bankMask : Nat
  rowShift : Nat
deriving Repr

/-- `computeShiftAndMask` of one token; `rowShift` is the `startBit` so far. -/
def AddrMap.addToken (bits : Field → Nat) (field : Field) (m : AddrMap) : Option AddrMap :=
  let mask := 2 ^ bits field - 1
  let rowShift := m.rowShift + bits field
  match field with
  | .col => if m.colMask = 0 then
      some { m with colShift := m.rowShift, colMask := mask, rowShift } else none
  | .rank => if m.rankMask = 0 then
      some { m with rankShift := m.rowShift, rankMask := mask, rowShift } else none
  | .bank => if m.bankMask = 0 then
      some { m with bankShift := m.rowShift, bankMask := mask, rowShift } else none

/-- The tokens of `addrMapping`, from the last one on. -/
def AddrMap.new (bits : Field → Nat) (tokens : List Field) : Option AddrMap :=
  if tokens.length ≠ 3 then none
  else tokens.reverse.foldlM (fun m field => m.addToken bits field) ⟨0, 0, 0, 0, 0, 0, 0⟩

structure Config where
  timing : Timing
  sysFreqKHz : Nat
  controllerSysLatency : Nat
  queueDepth : Nat
  rowHitLimit : Nat
  ranksPerChannel : Nat
  banksPerRank : Nat
  deferredWrites : Bool
  closedPage : Bool
  addrMap : AddrMap
deriving Repr

/-- The arguments of the constructor. -/
structure Args where
  lineSize : UInt32
  colSize : UInt32
  ranksPerChannel : UInt32
  banksPerRank : UInt32
  sysFreqMHz : UInt32
  tech : Tech
  addrMapping : List Field
  controllerSysLatency : UInt32
  queueDepth : UInt32
  rowHitLimit : UInt32
  deferredWrites : Bool
  closedPage : Bool
deriving Repr

def Args.fieldBits (args : Args) : Field → Nat
  | .col => (args.colSize / 8 * 64 / args.lineSize).toNat.log2
  | .rank => args.ranksPerChannel.toNat.log2
  | .bank => args.banksPerRank.toNat.log2

/-- The constructor, which panics when system cycles are too slow for the memory. -/
def Args.config (args : Args) : Option Config :=
  (initTech args.tech args.lineSize).bind fun timing =>
    let sysFreqKHz := (1000 * args.sysFreqMHz).toNat
    if timing.memFreqKHz ≥ sysFreqKHz / 2 then none
    else (AddrMap.new args.fieldBits args.addrMapping).map fun addrMap =>
      { timing, sysFreqKHz
        controllerSysLatency := args.controllerSysLatency.toNat
        queueDepth := args.queueDepth.toNat
        rowHitLimit := args.rowHitLimit.toNat
        ranksPerChannel := args.ranksPerChannel.toNat
        banksPerRank := args.banksPerRank.toNat
        deferredWrites := args.deferredWrites
        closedPage := args.closedPage
        addrMap }

namespace Config

variable (cfg : Config)

def sysToMemCycle (sysCycle : Nat) : Nat :=
  sysCycle * cfg.timing.memFreqKHz / cfg.sysFreqKHz + 1

def memToSysCycle (memCycle : Nat) : Nat :=
  (memCycle + 1) * cfg.sysFreqKHz / cfg.timing.memFreqKHz

def matchingMemToSysCycle (memCycle : Nat) : Nat :=
  (2 * memCycle - 1) * cfg.sysFreqKHz / cfg.timing.memFreqKHz / 2

def minRdLatency : Nat :=
  cfg.controllerSysLatency + cfg.memToSysCycle (cfg.timing.tCL + cfg.timing.tBL - 1)

def minWrLatency : Nat := cfg.controllerSysLatency

def preDelay : Nat := cfg.controllerSysLatency

def postDelayRd : Nat := cfg.minRdLatency - cfg.preDelay

def postDelayWr : Nat := 0

def refInterval : Nat := cfg.memToSysCycle cfg.timing.tREFI

end Config

/-! ### Requests and banks -/

structure AddrLoc where
  row : Nat
  bank : Nat
  rank : Nat
  col : Nat
deriving DecidableEq, Repr

def Config.mapLineAddr (cfg : Config) (lineAddr : UInt64) : Option AddrLoc :=
  let a := lineAddr.toNat
  let m := cfg.addrMap
  let l : AddrLoc := ⟨a >>> m.rowShift, (a >>> m.bankShift) &&& m.bankMask,
    (a >>> m.rankShift) &&& m.rankMask, (a >>> m.colShift) &&& m.colMask⟩
  if l.rank < cfg.ranksPerChannel ∧ l.bank < cfg.banksPerRank then some l else none

/-- A request.  `id` stands for its address; it is the number of the access event, too. -/
structure Request where
  id : Nat
  loc : AddrLoc
  write : Bool
  rowHitSeq : Nat
  arrivalCycle : Nat
  ev : Option Nat
deriving DecidableEq, Repr

structure Bank where
  openRow : Nat
  isOpen : Bool
  minPreCycle : Nat
  lastActCycle : Nat
  lastCmdCycle : Nat
  curRowHits : Nat
  rdReqs : List Request
  wrReqs : List Request
deriving DecidableEq, Repr

structure ActWindow where
  buf : List Nat
  idx : Nat
deriving DecidableEq, Repr

namespace ActWindow

def init (size : Nat) : ActWindow := ⟨List.replicate size 0, 0⟩

variable (w : ActWindow)

def minActCycle : Nat := w.buf.getD w.idx 0

def inc (i : Nat) : Nat := if i < w.buf.length - 1 then i + 1 else 0

def dec (i : Nat) : Nat := if i ≠ 0 then i - 1 else w.buf.length - 1

/-- The loop of `addActivation`: later activations move up, and `cur` is free. -/
def shift (actCycle : Nat) : Nat → Nat → ActWindow → ActWindow × Nat
  | 0, cur, w => (w, cur)
  | fuel + 1, cur, w =>
    let prev := w.buf.getD (w.dec cur) 0
    if actCycle < prev then
      let moved : ActWindow := { w with buf := w.buf.set cur prev }
      if w.dec cur = w.idx then (moved, w.dec cur) else shift actCycle fuel (w.dec cur) moved
    else (w, cur)

/-- The loop ends when `cur` is back at `idx`, after as many rounds as `buf` has entries. -/
def addActivation (actCycle : Nat) : Option ActWindow :=
  if w.minActCycle ≤ actCycle then
    let (moved, cur) := shift actCycle w.buf.length w.idx w
    some ⟨moved.buf.set cur actCycle, w.inc w.idx⟩
  else none

end ActWindow

/-! ### The controller -/

/-- The controller without its events.  `held` are the access events that it holds, and `done` those
that are done, each with the cycle of its call of `done`. -/
structure Controller where
  rdQueue : List Request
  wrQueue : List Request
  overflowQueue : List Request
  banks : Nat → Nat → Bank
  rankActWindows : Nat → ActWindow
  minRespCycle : Nat
  lastCmdWasWrite : Bool
  held : List Nat
  done : List (Nat × Nat)

namespace Controller

def init (cfg : Config) : Controller where
  rdQueue := []
  wrQueue := []
  overflowQueue := []
  banks := fun _ _ => ⟨0, false, 0, 0, 0, 0, [], []⟩
  rankActWindows := fun _ => .init 4
  minRespCycle := cfg.timing.tCL + cfg.timing.tBL + 1
  lastCmdWasWrite := false
  held := []
  done := []

variable (cfg : Config) (c : Controller)

def bankOf (r : Request) : Bank := c.banks r.loc.rank r.loc.bank

def setBank (rank bank : Nat) (b : Bank) : Controller :=
  { c with banks := Function.update c.banks rank (Function.update (c.banks rank) bank b) }

/-- The queue of its bank that a request is in. -/
def bankQueue (r : Request) : List Request :=
  if cfg.deferredWrites && r.write then (c.bankOf r).wrReqs else (c.bankOf r).rdReqs

/-- `prev` of the request is null. -/
def first (r : Request) : Bool := (c.bankQueue cfg r).head? = some r

/-- `rdQueue` or `wrQueue` has no free node. -/
def full : Bool := cfg.queueDepth ≤ c.rdQueue.length || cfg.queueDepth ≤ c.wrQueue.length

/-- `release` and `done` of an access event. -/
def finishEvent (ev doneCycle : Nat) : Option Controller :=
  if ev ∈ c.held then
    some { c with held := c.held.erase ev, done := c.done ++ [(ev, doneCycle)] }
  else none

/-- The place of a request in the queue of its bank, in FR-FCFS order: after the last one to the
same row, unless that one is the last hit in a row that has priority. -/
def insertRequest (bank : Bank) (q : List Request) (req : Request) : Request × List Request :=
  let after := (q.reverse.takeWhile fun m => m.loc.row ≠ req.loc.row).reverse
  match q.reverse.dropWhile fun m => m.loc.row ≠ req.loc.row with
  | m :: rest =>
    if m.rowHitSeq < cfg.rowHitLimit then
      let req := { req with rowHitSeq := m.rowHitSeq + 1 }
      (req, (m :: rest).reverse ++ req :: after)
    else
      let req := { req with rowHitSeq := 0 }
      (req, q ++ [req])
  | [] =>
    if bank.isOpen ∧ req.loc.row = bank.openRow ∧ bank.curRowHits < cfg.rowHitLimit ∧ q = [] then
      let req := { req with rowHitSeq := bank.curRowHits + 1 }
      (req, req :: q)
    else
      let req := { req with rowHitSeq := 0 }
      (req, q ++ [req])

/-- `queue`, with the allocation of the request before it. -/
def queue (req : Request) (memCycle : Nat) : Option (Controller × Request) :=
  let answered := if req.write then
      req.ev.bind fun ev => c.finishEvent ev
        (cfg.memToSysCycle memCycle + cfg.minWrLatency - cfg.preDelay - Config.postDelayWr)
    else some c
  answered.map fun c =>
    let req := { req with
      arrivalCycle := memCycle
      ev := if req.write then none else req.ev }
    let bank := c.bankOf req
    let (req, q) := insertRequest cfg bank (c.bankQueue cfg req) req
    if cfg.deferredWrites && req.write then
      ({ c.setBank req.loc.rank req.loc.bank { bank with wrReqs := q } with
        wrQueue := c.wrQueue ++ [req] }, req)
    else
      ({ c.setBank req.loc.rank req.loc.bank { bank with rdReqs := q } with
        rdQueue := c.rdQueue ++ [req] }, req)

/-- The earliest PRE, when a request is no row hit. -/
def preCycle (r : Request) : Nat :=
  let bank := c.bankOf r
  if bank.isOpen then max r.arrivalCycle bank.minPreCycle else bank.minPreCycle

/-- The earliest ACT, when a request is no row hit. -/
def actCycle (r : Request) : Nat :=
  max (max r.arrivalCycle
      (max (c.preCycle r + cfg.timing.tRP) ((c.bankOf r).lastActCycle + cfg.timing.tRRD)))
    ((c.rankActWindows r.loc.rank).minActCycle + cfg.timing.tFAW)

def rowHit (r : Request) : Bool :=
  let bank := c.bankOf r
  r.loc.row = bank.openRow && bank.isOpen

def findMinCmdCycle (r : Request) : Nat :=
  if c.rowHit r then max r.arrivalCycle ((c.bankOf r).lastCmdCycle + 1)
  else c.actCycle cfg r + cfg.timing.tRCD

/-- The loop of `trySchedule`: the first request that is ready, or else `minSchedCycle`. -/
def findReady (curCycle : Nat) : List Request → Option Nat → Option Request × Option Nat
  | [], minSchedCycle => (none, minSchedCycle)
  | r :: rest, minSchedCycle =>
    if c.first cfg r then
      let minCmdCycle := c.findMinCmdCycle cfg r
      let minSchedCycle := some (minSchedCycle.elim minCmdCycle (min minCmdCycle))
      if minCmdCycle ≤ curCycle then (some r, minSchedCycle)
      else findReady curCycle rest minSchedCycle
    else findReady curCycle rest minSchedCycle

/-- Record ACT. -/
def activate (r : Request) : Option Controller :=
  if c.rowHit r then some c
  else
    let bank := c.bankOf r
    let actCycle := c.actCycle cfg r
    ((c.rankActWindows r.loc.rank).addActivation actCycle).map fun w =>
      { c.setBank r.loc.rank r.loc.bank { bank with
          isOpen := true
          openRow := r.loc.row
          minPreCycle := if bank.isOpen then c.preCycle r + cfg.timing.tRAS else bank.minPreCycle
          lastActCycle := actCycle } with
        rankActWindows := Function.update c.rankActWindows r.loc.rank w }

/-- When the read or write command can be issued. -/
def cmdCycle (r : Request) (curCycle : Nat) : Nat :=
  let t := cfg.timing
  let minCmdCycle := max curCycle (c.minRespCycle - t.tCL)
  let minCmdCycle := if c.lastCmdWasWrite && !r.write then
      max minCmdCycle (c.minRespCycle + t.tWTR) else minCmdCycle
  let minCmdCycle := if c.rowHit r then minCmdCycle
    else max minCmdCycle (c.actCycle cfg r + t.tRCD)
  max minCmdCycle (c.minRespCycle - t.tCL)

/-- Record PRE, and RD or WR, in the bank of a request. -/
def issueBank (bank : Bank) (r : Request) (next : Option Request) (cmdCycle : Nat) : Bank :=
  let t := cfg.timing
  { bank with
    isOpen := if cfg.closedPage && !next.any (·.rowHitSeq != 0) then false else bank.isOpen
    minPreCycle := max bank.minPreCycle (max (bank.lastActCycle + t.tRAS)
      (if r.write then cmdCycle + t.tCL + t.tBL + t.tWR else cmdCycle + t.tRTP))
    lastCmdCycle := cmdCycle
    curRowHits := r.rowHitSeq }

/-- Issue the response to a read. -/
def respond (r : Request) (sysCycle : Nat) : Option Controller :=
  match r.ev with
  | some ev =>
    let doneSysCycle := cfg.memToSysCycle c.minRespCycle + cfg.controllerSysLatency
    if r.write = false ∧ sysCycle ≤ doneSysCycle then
      c.finishEvent ev (doneSysCycle - cfg.preDelay - cfg.postDelayRd)
    else none
  | none => some c

/-- Dequeue a request, which is the first one of its bank. -/
def dequeue (r : Request) (isWriteQueue : Bool) : Controller :=
  let bank := c.bankOf r
  if isWriteQueue then
    { c.setBank r.loc.rank r.loc.bank { bank with wrReqs := bank.wrReqs.tail } with
      wrQueue := c.wrQueue.erase r }
  else
    { c.setBank r.loc.rank r.loc.bank { bank with rdReqs := bank.rdReqs.tail } with
      rdQueue := c.rdQueue.erase r }

/-- Record the commands of a request, of which RD or WR is at `cmdCycle`. -/
def record (r : Request) (cmdCycle : Nat) : Controller :=
  { c.setBank r.loc.rank r.loc.bank
      (issueBank cfg (c.bankOf r) r (c.bankQueue cfg r).tail.head? cmdCycle) with
    minRespCycle := cmdCycle + cfg.timing.tCL + cfg.timing.tBL
    lastCmdWasWrite := r.write }

/-- Issue a request that is ready. -/
def issue (r : Request) (isWriteQueue : Bool) (curCycle sysCycle : Nat) : Option Controller :=
  let cmdCycle := c.cmdCycle cfg r curCycle
  (c.activate cfg r).bind fun c =>
    if (c.bankOf r).lastCmdCycle < cmdCycle then
      ((c.record cfg r cmdCycle).respond cfg r sysCycle).map fun c => c.dequeue r isWriteQueue
    else none

/-- Writes have priority if the write queue is getting full. -/
def isWriteQueue : Bool :=
  let size := c.wrQueue.length
  c.rdQueue.isEmpty || size > 3 * cfg.queueDepth % 2 ^ 32 / 4 ||
    (c.lastCmdWasWrite && size > cfg.queueDepth / 4)

/-- `trySchedule`, with `none` for the cycle `-1`. -/
def trySchedule (curCycle sysCycle : Nat) : Option (Controller × Option Nat) :=
  if c.rdQueue = [] ∧ c.wrQueue = [] then some (c, none)
  else if curCycle + cfg.timing.tCL < c.minRespCycle then
    some (c, some (c.minRespCycle - cfg.timing.tCL))
  else
    let isWriteQueue := c.isWriteQueue cfg
    let queue := if isWriteQueue then c.wrQueue else c.rdQueue
    if queue = [] then none
    else match c.findReady cfg curCycle queue none with
      | (some r, _) => (c.issue cfg r isWriteQueue curCycle sysCycle).map fun c =>
        (c, if c.rdQueue = [] ∧ c.wrQueue = [] then none
          else some (c.minRespCycle - cfg.timing.tCL))
      | (none, minSchedCycle) => some (c, minSchedCycle)

/-- The ranks and banks that there are. -/
def allBanks : List (Nat × Nat) :=
  (List.range cfg.ranksPerChannel).flatMap fun rank =>
    (List.range cfg.banksPerRank).map fun bank => (rank, bank)

def minRefreshCycle (memCycle : Nat) : Nat :=
  (allBanks cfg).foldl (fun cycle i =>
    max cycle (max (c.banks i.1 i.2).minPreCycle (c.banks i.1 i.2).lastCmdCycle)) memCycle

def refresh (memCycle : Nat) : Controller :=
  let refreshDoneCycle := c.minRefreshCycle cfg memCycle + cfg.timing.tRFC
  { c with banks := fun rank bank =>
      if rank < cfg.ranksPerChannel ∧ bank < cfg.banksPerRank then
        { c.banks rank bank with
          minPreCycle := refreshDoneCycle - cfg.timing.tRP
          isOpen := false }
      else c.banks rank bank }

end Controller

end Doppelganger.Dram
