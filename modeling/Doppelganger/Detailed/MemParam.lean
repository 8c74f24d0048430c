import Mathlib.Algebra.Group.Nat.Defs

/-! The parameters of the detailed memory model, in `detailed_mem_params.h`.  Durations are in
memory cycles and far below 32 bits; power and reports are left out. -/

namespace Doppelganger.Detailed

/-- Integer logarithm, 0 for 0. -/
def ilog2 (val : UInt32) : UInt32 := UInt32.ofNat val.toNat.log2

inductive MemAccessType
  | READ
  | WRITE
deriving DecidableEq, Repr

structure MemParam where
  channelCount : UInt32
  interleaveType : UInt32
  cacheLineSize : UInt32
  channelDataWidth : UInt32
  colAddrWidth : UInt32
  rankCount : UInt32
  bankCount : UInt32
  openRowBufPolicy : Bool
  mergeContinuous : Bool
  powerDownCycle : Nat
  accessLogDepth : Nat
  controllerLatency : UInt32
  schedulerQueueCount : UInt32
  tRC : Nat
  tRAS : Nat
  tRCD : Nat
  tRP : Nat
  tRPab : Nat
  tRTRS : Nat
  tRRD : Nat
  tWR : Nat
  tWTR : Nat
  tCAS : Nat
  tCWD : Nat
  tCCD : Nat
  tTrans : Nat
  tXP : Nat
  tREFI : Nat
  tRFC : Nat
  tFAW : Nat
  tRTP : Nat
deriving DecidableEq, Repr

namespace MemParam

variable (p : MemParam)

/-! ### `LoadConfigMain` -/

def rankWidth : UInt32 := ilog2 p.rankCount

def channelDataWidthLog : UInt32 := ilog2 p.channelDataWidth

def bankWidth : UInt32 := ilog2 p.bankCount

def byteOffsetWidth : UInt32 := ilog2 p.cacheLineSize

/-! ### `LoadTiming` -/

def tTransCrit : Nat := p.tTrans / 4

/-- Read or write to data. -/
def getDataLatency : MemAccessType → Nat
  | .READ => p.tCAS
  | .WRITE => p.tCWD

/-- Read or write to first data. -/
def getDataDelay (type : MemAccessType) : Nat := p.getDataLatency type + p.tTransCrit

/-- Data length. -/
def getDataSlot (_ : MemAccessType) : Nat := p.tTrans

/-- Read or write to precharge. -/
def getPreDelay : MemAccessType → Nat
  | .READ => p.tRTP
  | .WRITE => p.tCWD + p.tTrans + p.tWR

/-- Required cycles for refresh. -/
def getRefreshCycle : Nat := if p.openRowBufPolicy then p.tRFC + p.tRPab else p.tRFC

/-- `MakeConstraints`; only the one for a write after a read has a difference, of 32 bits. -/
def getRdWrDelay (type lastType : MemAccessType) : Nat :=
  match lastType, type with
  | .READ, .READ => max p.tTrans p.tCCD
  | .READ, .WRITE => (p.tCAS + p.tCCD / 2 + 2 + (2 ^ 32 - p.tCWD)) % 2 ^ 32
  | .WRITE, .READ => p.tCWD + p.tTrans + p.tWTR
  | .WRITE, .WRITE => max p.tCCD p.tTrans

/-- The parameters that an empty configuration file gives. -/
def defaults : MemParam where
  channelCount := 2
  interleaveType := 0
  cacheLineSize := 64
  channelDataWidth := 64
  colAddrWidth := 10
  rankCount := 1
  bankCount := 2
  openRowBufPolicy := false
  mergeContinuous := false
  powerDownCycle := 50
  accessLogDepth := 4
  controllerLatency := 0
  schedulerQueueCount := 0
  tRC := 1
  tRAS := 1
  tRCD := 1
  tRP := 1
  tRPab := 1
  tRTRS := 1
  tRRD := 1
  tWR := 1
  tWTR := 1
  tCAS := 1
  tCWD := 1
  tCCD := 1
  tTrans := 4
  tXP := 1
  tREFI := 1
  tRFC := 1
  tFAW := 1
  tRTP := 1

end MemParam

end Doppelganger.Detailed
