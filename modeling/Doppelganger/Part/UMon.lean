import Doppelganger.Types
import Doppelganger.Lib.Run
import Mathlib

/-! Utility monitors, of `utility_monitor.cpp` and `monitor.cpp`.  An array is the memory from its
first entry on together with its size; `stray` tells that an access was past its end.  A curve over
`n` buckets has `n + 1` points, and both arrays that hold curves are a point too small. -/

namespace Doppelganger.Part

open List

/-- The assignments `writes`, in order, to the entries of an array. -/
def store {α : Type} (writes : List (Nat × α)) (mem : Nat → α) : Nat → α :=
  writes.foldl (fun mem w => Function.update mem w.1 w.2) mem

/-- Some assignment is past the end of an array of `size` entries. -/
def leaves {α : Type} (size : Nat) (writes : List (Nat × α)) : Bool :=
  writes.any fun w => size ≤ w.1

/-! ### One monitor -/

/-- A `UMon`.  Each of its sets is a list of addresses, the most recently used one first. -/
structure UMon where
  buckets : Nat
  samplingFactorBits : Nat
  setsBits : Nat
  curWayHits : List UInt64
  curMisses : UInt64
  heads : List (List Address)

namespace UMon

def init (bankLines umonLines buckets : Nat) : Option UMon :=
  if umonLines = 0 ∨ buckets = 0 then none
  else
    let samplingFactor := bankLines / umonLines
    let sets := umonLines / buckets
    some ⟨buckets, samplingFactor.log2, sets.log2, replicate buckets 0, 0,
      replicate sets (replicate buckets 0)⟩

/-- An access, with the two functions of the hash family. -/
def access (hash : Nat → Address → UInt64) (lineAddr : Address) (umon : UMon) : Option UMon :=
  let sampleSel := (hash 0 lineAddr).toNat % 2 ^ umon.samplingFactorBits
  if sampleSel ≠ 0 then some umon
  else
    let set := (hash 1 lineAddr).toNat % 2 ^ umon.setsBits
    umon.heads[set]?.map fun nodes =>
      if lineAddr ∈ nodes then
        let b := nodes.idxOf lineAddr
        { umon with
          curWayHits := umon.curWayHits.modify b (· + 1)
          heads := umon.heads.set set (lineAddr :: nodes.eraseIdx b) }
      else
        { umon with
          curMisses := umon.curMisses + 1
          heads := umon.heads.set set (lineAddr :: nodes.dropLast) }

/-- The assignments to `misses[n]` and the entries before it, from the last to the first. -/
def getMissesFrom (curWayHits : List UInt64) : Nat → UInt64 → List (Nat × UInt64)
  | 0, total => [(0, total)]
  | n + 1, total => (n + 1, total) :: getMissesFrom curWayHits n (total + curWayHits.getD n 0)

def getMisses (umon : UMon) : List (Nat × UInt64) :=
  getMissesFrom umon.curWayHits umon.buckets umon.curMisses

def startNextInterval (umon : UMon) : UMon :=
  { umon with curMisses := 0, curWayHits := replicate umon.buckets 0 }

end UMon

/-! ### The monitors of all partitions -/

/-- The assignments of `getMissCurve` to `misses` when it keeps or drops points. -/
def downsample (buckets umonBuckets : Nat) (umonMisses : Nat → UInt64) : List (Nat × UInt32) :=
  let downsampleRatio := umonBuckets / buckets
  (range buckets).map (fun j => (j, (umonMisses (j * downsampleRatio)).toUInt32)) ++
    [(buckets, (umonMisses umonBuckets).toUInt32)]

/-- The point `k` of `upsampleRatio` between two misses. -/
def interpolate (m0 m1 : UInt64) (k upsampleRatio : Nat) : UInt32 :=
  let frac := (UInt32.ofNat k).toFloat / (UInt32.ofNat upsampleRatio).toFloat
  let m := m0.toFloat * (1.0 - frac) + m1.toFloat * frac
  m.toUInt64.toUInt32

/-- The assignments of `getMissCurve` to `misses` when it adds points between two others. -/
def upsample (buckets umonBuckets : Nat) (umonMisses : Nat → UInt64) : List (Nat × UInt32) :=
  let upsampleRatio := buckets / umonBuckets
  (range umonBuckets).flatMap fun j =>
    (upsampleRatio * j, (umonMisses j).toUInt32) ::
      (range' 1 (upsampleRatio - 1)).map (fun k => (upsampleRatio * j + k,
        interpolate (umonMisses j) (umonMisses (j + 1)) k upsampleRatio)) ++
      [(buckets, (umonMisses umonBuckets).toUInt32)]

/-- `getMissCurve` for one monitor: the assignments to `misses`, and whether an access to the
array `umonMisses`, of `umonBuckets` entries, was past its end.  What is read there was assigned
before. -/
def getMissCurve (buckets : Nat) (umon : UMon) : Option (List (Nat × UInt32) × Bool) :=
  let umonMisses := store umon.getMisses fun _ => 0
  let stray := leaves umon.buckets umon.getMisses
  if umon.buckets ≥ buckets then
    if buckets ≠ 0 ∧ umon.buckets % buckets = 0 then
      some (downsample buckets umon.buckets umonMisses, stray)
    else none
  else
    if umon.buckets ≠ 0 ∧ buckets % umon.buckets = 0 then
      some (upsample buckets umon.buckets umonMisses, stray)
    else none

/-- The assignments to an array that starts at entry `base` of another. -/
def shift {α : Type} (base : Nat) (writes : List (Nat × α)) : List (Nat × α) :=
  writes.map fun w => (base + w.1, w.2)

/-- `getMissCurves` from partition `p` on: `missCache`, and whether an access was past the end of
an array. -/
def getMissCurves (buckets size : Nat) : List UMon → Nat → (Nat → UInt32) × Bool →
    Option ((Nat → UInt32) × Bool)
  | [], _, cache => some cache
  | umon :: monitors, p, (missCache, stray) =>
    (getMissCurve buckets umon).bind fun (misses, umonStray) =>
      let writes := shift (p * buckets % 2 ^ 32) misses
      getMissCurves buckets size monitors (p + 1)
        (store writes missCache, stray || umonStray || leaves size writes)

structure UMonMonitor where
  buckets : Nat
  monitors : List UMon
  size : Nat
  missCache : Nat → UInt32
  missCacheValid : Bool

/-- What `get` returns, with the monitor after it. -/
structure Got where
  misses : UInt32
  stray : Bool
  monitor : UMonMonitor

namespace UMonMonitor

def init (numLines umonLines umonBuckets numPartitions buckets : Nat) : Option UMonMonitor :=
  if numPartitions > 0 then
    (UMon.init numLines umonLines umonBuckets).map fun umon =>
      ⟨buckets, replicate numPartitions umon, buckets * numPartitions % 2 ^ 32, fun _ => 0, false⟩
  else none

def access (hash : Nat → Address → UInt64) (partition : Nat) (lineAddr : Address)
    (m : UMonMonitor) : Option UMonMonitor :=
  m.monitors[partition]?.bind fun umon => (umon.access hash lineAddr).bind fun umon =>
    if m.missCacheValid then none
    else some { m with monitors := m.monitors.set partition umon }

/-- The curves are computed unless they are in `missCache` already. -/
def fill (m : UMonMonitor) : Option (UMonMonitor × Bool) :=
  if m.missCacheValid then some (m, false)
  else
    (getMissCurves m.buckets m.size m.monitors 0 (m.missCache, false)).map fun (missCache, stray) =>
      ({ m with missCache := missCache, missCacheValid := true }, stray)

def get (partition bucket : Nat) (m : UMonMonitor) : Option Got :=
  if partition < m.monitors.length then
    m.fill.map fun (m, stray) =>
      let i := (partition * m.buckets + bucket) % 2 ^ 32
      ⟨m.missCache i, stray || m.size ≤ i, m⟩
  else none

def reset (m : UMonMonitor) : UMonMonitor :=
  { m with monitors := m.monitors.map .startNextInterval, missCacheValid := false }

end UMonMonitor

inductive MonitorOp where
  | access (partition : Nat) (lineAddr : Address)
  | get (partition bucket : Nat)
  | reset

def stepMonitor (hash : Nat → Address → UInt64) : MonitorOp → UMonMonitor → Option UMonMonitor
  | .access partition lineAddr, m => m.access hash partition lineAddr
  | .get partition bucket, m => (m.get partition bucket).map Got.monitor
  | .reset, m => some m.reset

end Doppelganger.Part
