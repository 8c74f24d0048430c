import Doppelganger.Lib.Binary64
import Doppelganger.Lib.Run

/-! Lookahead partitioning, of `lookahead.cpp`: the allocations that `LookaheadPartitioner` gives to
the partitions of a cache, and the ways that `WayPartReplPolicy` in `part_repl_policies.h` assigns
from them.  Doubles are Lean's `Float`.  An operation is `none` when it fails an assertion, asks a
monitor for a point that is not on a curve, or leaves an array. -/

namespace Doppelganger.Part

open List

/-- A monitor with the miss curve of each partition. -/
structure PartitionMonitor where
  curves : List (List UInt32)

def PartitionMonitor.get (monitor : PartitionMonitor) (partition bucket : Nat) : Option UInt32 :=
  monitor.curves[partition]?.bind fun curve => curve[bucket]?

/-! ### Marginal utility -/

/-- The misses saved per bucket when a partition gets `i` buckets more. -/
def marginalUtility (monitor : PartitionMonitor) (part partAlloc i : Nat) : Option Float :=
  (monitor.get part partAlloc).bind fun curMisses =>
    (monitor.get part (partAlloc + i)).map fun newMisses =>
      let extraHits := (curMisses - newMisses).toUInt64
      extraHits.toFloat / (UInt32.ofNat i).toFloat

/-- The loop of `getMaxMarginalUtility` over `n` values of `i`. -/
def maxMarginalUtility (monitor : PartitionMonitor) (part partAlloc : Nat) :
    Nat → Nat → Float × Nat → Option (Float × Nat)
  | 0, _, best => some best
  | n + 1, i, best => (marginalUtility monitor part partAlloc i).bind fun mu =>
    maxMarginalUtility monitor part partAlloc n (i + 1) (if mu > best.1 then (mu, i) else best)

def getMaxMarginalUtility (monitor : PartitionMonitor) (part partAlloc balance : Nat) :
    Option (Float × Nat) :=
  maxMarginalUtility monitor part partAlloc balance 1 (-1.0, 0)

/-- Utility is defined as misses saved over not having a cache. -/
def computePartitioningTotalUtility (monitor : PartitionMonitor) (parts : List Nat) :
    Nat → Nat → UInt64 × UInt64 → Option UInt64
  | 0, _, (noCacheMisses, curPartMisses) => some (noCacheMisses - curPartMisses)
  | n + 1, p, (noCacheMisses, curPartMisses) => (monitor.get p 0).bind fun noCache =>
    parts[p]?.bind fun part => (monitor.get p part).bind fun curPart =>
      computePartitioningTotalUtility monitor parts n (p + 1)
        (noCacheMisses + noCache.toUInt64, curPartMisses + curPart.toUInt64)

/-! ### The greedy loop -/

/-- The best of `n` partitions from `i` on: its marginal utility, its number and the buckets that
it gets. -/
def bestPartition (monitor : PartitionMonitor) (forbidden : Option (List Bool)) (allocs : List Nat)
    (balance : Nat) : Nat → Nat → Float × Nat × Nat → Option (Float × Nat × Nat)
  | 0, _, best => some best
  | n + 1, i, best =>
    if forbidden.any fun f => f.getD i false then
      bestPartition monitor forbidden allocs balance n (i + 1) best
    else
      allocs[i]?.bind fun alloc =>
        (getMaxMarginalUtility monitor i alloc balance).bind fun (mu, muAlloc) =>
          bestPartition monitor forbidden allocs balance n (i + 1)
            (if mu > best.1 then (mu, i, muAlloc) else best)

/-- The loop that gives out the balance, `none` when `fuel` iterations are not enough. -/
def allocate (monitor : PartitionMonitor) (forbidden : Option (List Bool)) (numPartitions : Nat) :
    Nat → Nat → List Nat → Option (List Nat)
  | _, 0, allocs => some allocs
  | 0, _ + 1, _ => none
  | fuel + 1, balance + 1, allocs =>
    (bestPartition monitor forbidden allocs (balance + 1) numPartitions 0
        (-1.0, numPartitions, 0)).bind fun (_, maxMuPart, maxMuAlloc) =>
      if maxMuPart < numPartitions then
        allocate monitor forbidden numPartitions fuel (balance + 1 - maxMuAlloc)
          (allocs.modify maxMuPart (· + maxMuAlloc))
      else none

/-- The allocations, found in at most as many iterations as there are buckets to give out. -/
def computeBestPartitioning (numPartitions : Nat) (buckets minAlloc : UInt32)
    (forbidden : Option (List Bool)) (monitor : PartitionMonitor) : Option (List Nat) :=
  let balance := buckets - minAlloc
  allocate monitor forbidden numPartitions balance.toNat balance.toNat
    (replicate numPartitions minAlloc.toNat)

/-! ### The partitioner -/

structure LookaheadPartitioner where
  numPartitions : UInt32
  buckets : UInt32
  minAlloc : UInt32
  allocPortion : Float
  forbidden : Option (List Bool)
  curAllocs : List Nat

namespace LookaheadPartitioner

def init (numPartitions buckets minAlloc : UInt32) (allocPortion : Float)
    (forbidden : Option (List Bool)) : Option LookaheadPartitioner :=
  if 0 < buckets then
    some ⟨numPartitions, buckets, minAlloc, allocPortion, forbidden,
      replicate (buckets.toNat + 1) 0⟩
  else none

/-- The buckets that are allocated. -/
def given (lp : LookaheadPartitioner) : UInt32 := (lp.allocPortion * lp.buckets.toFloat).toUInt32

/-- The call of `computeBestPartitioning`. -/
def bestAllocs (lp : LookaheadPartitioner) (monitor : PartitionMonitor) : Option (List Nat) :=
  computeBestPartitioning lp.numPartitions.toNat lp.given (lp.minAlloc * lp.numPartitions)
    lp.forbidden monitor

/-- `std::copy` of the first `n` elements of `allocs` over those of `curAllocs`. -/
def copyAllocs (n : Nat) (allocs curAllocs : List Nat) : Option (List Nat) :=
  if n ≤ curAllocs.length then some (allocs.take n ++ curAllocs.drop n) else none

/-- `partition` up to its call of `setPartitionSizes(curAllocs)`.  The allocations are always
switched, whatever the two utilities are. -/
def partition (monitor : PartitionMonitor) (lp : LookaheadPartitioner) :
    Option LookaheadPartitioner :=
  (lp.bestAllocs monitor).bind fun bestAllocs =>
    let n := lp.numPartitions.toNat
    (computePartitioningTotalUtility monitor bestAllocs n 0 (0, 0)).bind fun _newUtility =>
      (computePartitioningTotalUtility monitor lp.curAllocs n 0 (0, 0)).bind fun _curUtility =>
        (copyAllocs n bestAllocs lp.curAllocs).map fun curAllocs => { lp with curAllocs }

end LookaheadPartitioner

/-! ### Way partitioning -/

structure WayPartReplPolicy where
  partitions : Nat
  totalSize : UInt32
  ways : UInt32
  targetSize : List UInt32
  wayPartIndex : List Nat

namespace WayPartReplPolicy

/-- The next `n` ways go to partition `p`. -/
def fillWays (p : Nat) : Nat → Nat → List Nat → Option (Nat × List Nat)
  | 0, curWay, wayPartIndex => some (curWay, wayPartIndex)
  | n + 1, curWay, wayPartIndex =>
    if curWay < wayPartIndex.length then fillWays p n (curWay + 1) (wayPartIndex.set curWay p)
    else none

/-- The loop of `setPartitionSizes` over `n` partitions from `p` on. -/
def assignWays (waysPart : List Nat) : Nat → Nat → Nat → WayPartReplPolicy →
    Option (Nat × WayPartReplPolicy)
  | 0, _, curWay, repl => some (curWay, repl)
  | n + 1, p, curWay, repl => waysPart[p]?.bind fun ways =>
    (fillWays p ways curWay repl.wayPartIndex).bind fun (curWay, wayPartIndex) =>
      let targetSize := repl.totalSize * UInt32.ofNat ways / repl.ways
      assignWays waysPart n (p + 1) curWay
        { repl with targetSize := repl.targetSize.set p targetSize, wayPartIndex := wayPartIndex }

def setPartitionSizes (waysPart : List Nat) (repl : WayPartReplPolicy) :
    Option WayPartReplPolicy :=
  (assignWays waysPart repl.partitions 0 0 repl).bind fun (curWay, repl) =>
    if curWay = repl.ways.toNat then some repl else none

end WayPartReplPolicy

end Doppelganger.Part
