import Doppelganger.Detailed.AddressMap
import Mathlib.Data.List.Sort
import Mathlib.Logic.Function.Basic

/-! The channels of `detailed_mem.cpp`: how `LatencySimulate` finds the cycles of the commands of a
request and its slot on the data bus.  Cycles are natural numbers; counters for power are left out.
A function is `none` when an assertion fails. -/

namespace Doppelganger.Detailed

open MemAccessType

/-! ### Ranks -/

structure BankInfo where
  isOpen : Bool
  lastType : MemAccessType
  lastRow : UInt32
  lastActCycle : Nat
  lastRdWrCycle : Nat
  lastPreCycle : Nat
deriving DecidableEq, Repr

structure MemRank where
  lastBank : Nat
  lastAccessCycle : Nat
  lastRefreshCycle : Nat
  accessInRefresh : Nat
  tFAWIndex : Nat
  tFAWCycle : Nat → Nat
  banks : Nat → BankInfo

namespace MemRank

def init : MemRank where
  lastBank := 0
  lastAccessCycle := 0
  lastRefreshCycle := 0
  accessInRefresh := 0
  tFAWIndex := 0
  tFAWCycle := fun _ => 0
  banks := fun _ => ⟨false, READ, 0, 0, 0, 0⟩

variable (p : MemParam) (r : MemRank)

def setBank (bank : Nat) (b : BankInfo) : MemRank :=
  { r with banks := Function.update r.banks bank b }

def access (accessCycle issuedCycle : Nat) (row : UInt32) (bank : Nat) (type : MemAccessType) :
    Option MemRank :=
  if (r.banks bank).lastRdWrCycle < issuedCycle then
    some { r.setBank bank { r.banks bank with
        lastRdWrCycle := issuedCycle
        lastRow := row
        lastType := type } with
      lastAccessCycle := max r.lastAccessCycle accessCycle
      lastBank := bank }
  else none

def refresh (lastCycle : Nat) : Option MemRank :=
  if r.lastRefreshCycle < lastCycle then
    some { r with
      banks := fun bank => { r.banks bank with isOpen := false }
      lastRefreshCycle := lastCycle }
  else none

def getFAWCycle : Nat := r.tFAWCycle r.tFAWIndex

def setFAWCycle (cycle : Nat) : Option MemRank :=
  if r.getFAWCycle ≤ cycle then
    some { r with
      tFAWCycle := Function.update r.tFAWCycle r.tFAWIndex cycle
      tFAWIndex := (r.tFAWIndex + 1) % 4 }
  else none

def issueActivate (bank issuedCycle : Nat) : Option MemRank :=
  (r.setFAWCycle issuedCycle).bind fun r =>
    if (r.banks bank).lastActCycle ≤ issuedCycle then
      some (r.setBank bank { r.banks bank with lastActCycle := issuedCycle, isOpen := true })
    else none

def issuePrecharge (bank issuedCycle : Nat) : Option MemRank :=
  if (r.banks bank).lastPreCycle ≤ issuedCycle then
    some (r.setBank bank { r.banks bank with lastPreCycle := issuedCycle, isOpen := false })
  else none

/-- The refreshes since the last one, a number of 32 bits. -/
def updateRefreshNum (arrivalCycle : Nat) : Option Nat :=
  if r.lastRefreshCycle ≤ arrivalCycle then
    if p.tREFI = 0 then none
    else some ((arrivalCycle - r.lastRefreshCycle) / p.tREFI % 2 ^ 32)
  else some 0

def updateLastRefreshCycle (refreshNum : Nat) : Option MemRank :=
  if 0 < refreshNum then r.refresh (r.lastRefreshCycle + p.tREFI * refreshNum % 2 ^ 32)
  else some r

def getPowerDownPenalty (arrivalCycle : Nat) : Nat :=
  if p.powerDownCycle ≠ 0 ∧ r.lastAccessCycle + p.powerDownCycle < arrivalCycle then p.tXP else 0

def isRowBufferHit (row : UInt32) (bank : Nat) : Bool :=
  (r.banks bank).isOpen && (r.banks bank).lastRow == row

def lastType : MemAccessType := (r.banks r.lastBank).lastType

/-- What the last access has to do with a refresh. -/
def updateAccessInRefresh (refreshNum : Nat) : MemRank :=
  let accessInRefresh := if refreshNum = 0 then 0 else r.accessInRefresh
  { r with accessInRefresh :=
      if r.lastRefreshCycle ≠ 0 ∧ r.lastRefreshCycle ≤ r.lastAccessCycle ∧
          r.lastAccessCycle - r.lastRefreshCycle ≤ p.getRefreshCycle then accessInRefresh + 1
      else 0 }

/-- `CalcIntraIssueCycle`, after `accessInRefresh` is updated. -/
def intraIssueCycle (rowHit : Bool) (type : MemAccessType) (arrivalCycle : Nat) : Nat :=
  if r.accessInRefresh ≠ 0 then
    let issuableCycle := max arrivalCycle (r.lastRefreshCycle + p.getRefreshCycle +
      (r.lastAccessCycle - r.lastRefreshCycle))
    if 2 ≤ r.accessInRefresh then issuableCycle + p.getRdWrDelay type r.lastType
    else issuableCycle
  else
    let lastIssuedCycle := (r.banks r.lastBank).lastRdWrCycle
    if lastIssuedCycle = 0 then arrivalCycle
    else
      max arrivalCycle (lastIssuedCycle + if rowHit then p.getRdWrDelay type r.lastType else 1)

def calcIntraIssueCycle (rowHit : Bool) (type : MemAccessType) (arrivalCycle refreshNum : Nat) :
    MemRank × Nat :=
  let r := r.updateAccessInRefresh p refreshNum
  (r, r.intraIssueCycle p rowHit type arrivalCycle)

def calcActConst (bank issuableCycle : Nat) : Nat :=
  let b := r.banks bank
  if b.lastActCycle = 0 then issuableCycle
  else
    let updateCycle := max issuableCycle (b.lastActCycle + p.tRC)
    let updateCycle := if b.lastPreCycle ≠ 0 then max updateCycle (b.lastPreCycle + p.tRP)
      else updateCycle
    let latestActCycle := (List.range p.bankCount.toNat).foldl
      (fun cycle i => max cycle (r.banks i).lastActCycle) 0
    max (max updateCycle (latestActCycle + p.tRRD)) (r.getFAWCycle + p.tFAW)

def calcPreConst (bank : Nat) (type : MemAccessType) (issuableCycle : Nat) : Nat :=
  max (max issuableCycle ((r.banks bank).lastRdWrCycle + p.getPreDelay type))
    ((r.banks bank).lastActCycle + p.tRAS)

def calcRdWrConst (type : MemAccessType) (issuableCycle : Nat) : Nat :=
  max issuableCycle ((r.banks r.lastBank).lastRdWrCycle + p.getRdWrDelay type r.lastType)

def checkContinuousAccess (arrivalCycle bank : Nat) (row : UInt32) : Bool :=
  p.mergeContinuous && arrivalCycle < (r.banks bank).lastPreCycle && (r.banks bank).lastRow == row

/-! ### The commands of a request -/

/-- PRE and ACT of a request, if there are any: the rank after them, the cycle from which the read
or write can be issued, and whether there is no ACT because the row is still open. -/
def issueRow (place : Place) (type : MemAccessType) (arrivalCycle refreshNum : Nat)
    (rowHit : Bool) :
    Option (MemRank × Option Nat × Bool) :=
  let bank := place.bank.toNat
  if p.openRowBufPolicy then
    if rowHit then some (r, none, false)
    else
      let (r, issueCycle) := r.calcIntraIssueCycle p rowHit type arrivalCycle refreshNum
      if (r.banks bank).isOpen then
        let preIssueCycle := r.calcPreConst p bank (r.banks bank).lastType issueCycle
        (r.issuePrecharge bank preIssueCycle).map fun r => (r, some (preIssueCycle + p.tRP), false)
      else some (r, some issueCycle, false)
  else if rowHit then none
  else if r.checkContinuousAccess p arrivalCycle bank place.row then some (r, none, true)
  else
    let (r, issueCycle) := r.calcIntraIssueCycle p rowHit type arrivalCycle refreshNum
    some (r, some issueCycle, false)

/-- The cycle from which the read or write can be issued, and the rank after ACT. -/
def rdwrStart (place : Place) (type : MemAccessType) (arrivalCycle refreshNum : Nat)
    (rowHit continuous : Bool) : Option Nat → Option (MemRank × Nat)
  | some issueCycle =>
    let actIssueCycle := r.calcActConst p place.bank.toNat issueCycle
    (r.issueActivate place.bank.toNat actIssueCycle).bind fun r =>
      if arrivalCycle ≤ actIssueCycle then
        some (r, r.calcRdWrConst p type (actIssueCycle + p.tRCD))
      else none
  | none =>
    if continuous then some (r, r.calcRdWrConst p type arrivalCycle)
    else if rowHit && p.openRowBufPolicy then
      some (r.calcIntraIssueCycle p rowHit type arrivalCycle refreshNum)
    else none

/-- The refreshes, PRE and ACT of a request, and the cycle from which the read or write can be
issued. -/
def prepare (place : Place) (type : MemAccessType) (arrivalCycle : Nat) :
    Option (MemRank × Nat) :=
  (r.updateRefreshNum p arrivalCycle).bind fun refreshNum =>
    (r.updateLastRefreshCycle p refreshNum).bind fun r =>
      let rowHit := r.isRowBufferHit place.row place.bank.toNat
      (r.issueRow p place type arrivalCycle refreshNum rowHit).bind
        fun (r, actIssueCycle, continuous) =>
          (r.rdwrStart p place type arrivalCycle refreshNum rowHit continuous actIssueCycle).bind
            fun (r, start) => if arrivalCycle ≤ start then some (r, start) else none

end MemRank

/-! ### The data bus -/

/-- The interval of the data bus that a request takes. -/
abbrev Slot := Nat × Nat

/-- The order of pairs. -/
def slotLe (a b : Slot) : Prop := a.1 < b.1 ∨ a.1 = b.1 ∧ a.2 ≤ b.2

instance : DecidableRel slotLe := fun a b =>
  inferInstanceAs (Decidable (a.1 < b.1 ∨ a.1 = b.1 ∧ a.2 ≤ b.2))

/-- The loop of `CalcInterIssueCycle`: the first slot that it finds from `tStart` on. -/
def findSlot (tSlot tRTRS : Nat) : List Slot → Nat → Nat
  | [], tStart => tStart
  | (busStart, logEnd) :: rest, tStart =>
    let tEnd := tStart + tSlot
    let busEnd := logEnd + tRTRS
    if busStart < tEnd ∧ tEnd ≤ busEnd ∨ busStart ≤ tStart ∧ tStart < busEnd then
      findSlot tSlot tRTRS rest busEnd
    else if tEnd < busStart then tStart
    else findSlot tSlot tRTRS rest tStart

structure MemChannel where
  myId : UInt32
  ranks : Nat → MemRank
  accessLog : List Slot

namespace MemChannel

def init (myId : UInt32) : MemChannel := ⟨myId, fun _ => .init, []⟩

variable (p : MemParam) (c : MemChannel)

/-- The data of a request that may be issued from `arrivalCycle` on starts here. -/
def slotStart (type : MemAccessType) (arrivalCycle : Nat) : Nat :=
  findSlot (p.getDataSlot type + p.tRTRS) p.tRTRS c.accessLog
    (arrivalCycle + p.getDataLatency type)

def calcInterIssueCycle (type : MemAccessType) (arrivalCycle : Nat) : Nat :=
  c.slotStart p type arrivalCycle - p.getDataLatency type

/-- The access log after a slot is recorded.  The oldest slot is dropped from a full one, and the
next one then stands for all that came before it. -/
def updateDataBusCycle (slot : Slot) (accessLog : List Slot) : Option (List Slot) :=
  let accessLog := (accessLog ++ [slot]).insertionSort slotLe
  if p.accessLogDepth < accessLog.length then
    match accessLog.tail with
    | [] => none
    | oldest :: rest => some ((0, oldest.2) :: rest)
  else some accessLog

/-- The read or write of a request, and PRE after it when rows are closed: the rank after them. -/
def issueRdWr (r : MemRank) (place : Place) (type : MemAccessType)
    (accessCycle rdwrIssueCycle : Nat) : Option MemRank :=
  (r.access accessCycle rdwrIssueCycle place.row place.bank.toNat type).bind fun r =>
    if p.openRowBufPolicy then some r
    else r.issuePrecharge place.bank.toNat (r.calcPreConst p place.bank.toNat type rdwrIssueCycle)

/-- `LatencySimulate`, with the latency that it returns. -/
def latencySimulate (lineAddr : UInt64) (arrivalCycle : Nat) (type : MemAccessType) :
    Option (MemChannel × Nat) :=
  (p.addressMap c.myId lineAddr).bind fun place =>
    let rank := place.rank.toNat
    ((c.ranks rank).prepare p place type arrivalCycle).bind fun (r, rdwrStart) =>
      let rdwrIssueCycle := c.calcInterIssueCycle p type rdwrStart
      if arrivalCycle ≤ rdwrIssueCycle then
        let latency := rdwrIssueCycle - arrivalCycle + p.getDataDelay type +
          (c.ranks rank).getPowerDownPenalty p arrivalCycle
        let busEndCycle := arrivalCycle + (latency + (p.tTrans - p.tTransCrit))
        (issueRdWr p r place type busEndCycle rdwrIssueCycle).bind fun r =>
          (updateDataBusCycle p (busEndCycle - p.getDataSlot type, busEndCycle) c.accessLog).map
            fun accessLog =>
              ({ c with ranks := Function.update c.ranks rank r, accessLog }, latency)
      else none

/-- `PeriodicUpdatePower` of one rank. -/
def periodicUpdate (phaseCycle rank : Nat) : Option MemChannel :=
  let r := c.ranks rank
  if r.lastAccessCycle < phaseCycle then
    (r.updateRefreshNum p phaseCycle).bind fun refreshNum =>
      (r.updateLastRefreshCycle p refreshNum).map fun r =>
        { c with ranks := Function.update c.ranks rank r }
  else some c

/-- `PeriodicUpdatePower`. -/
def periodicUpdatePower (phaseCycle : Nat) : Option MemChannel :=
  (List.range p.rankCount.toNat).foldlM (fun c rank => c.periodicUpdate p phaseCycle rank) c

end MemChannel

end Doppelganger.Detailed
