import Doppelganger.Lib.Tally
import Doppelganger.Lib.Run

/-! `VantageReplPolicy` of `part_repl_policies.h`, which keeps the partitions of a cache near their
target sizes: lines of a partition that is too large are demoted to an unmanaged region, where the
victims are, and a hit on a demoted line promotes it again.  Doubles are Lean's `Float`.  An
operation is `none` when it fails an assertion or leaves an array. -/

namespace Doppelganger.Part

open Lib Function

/-- `partInfo[p]` without its four sizes. -/
structure VantagePartInfo where
  curBts : UInt64
  curBtsHits : UInt32
  setpointBts : UInt64
  setpointAdjs : UInt64
  curIntervalIns : UInt32
  curIntervalDems : UInt32
  curIntervalCands : UInt32

/-- `p` is the partition that a line is in, `op` the partition id that it came with. -/
structure LineInfo where
  addr : ℕ
  ts : ℕ
  bts : UInt64
  p : ℕ
  op : ℕ

/-- The unmanaged region is partition `partitions`.  `size p` and the three after it are those of
`partInfo[p]`, `candList` is its first `candIdx` entries, and `draws` is how many numbers were drawn
from `rng`.  `underflow` records that a size was decremented at zero, and is not in the source. -/
structure VantageReplPolicy where
  partitions : ℕ
  totalSize : UInt32
  assoc : UInt32
  partSlack : Float
  maxAperture : Float
  partGranularity : UInt32
  smoothTransients : Bool
  size : ℕ → UInt64
  extendedSize : ℕ → UInt64
  targetSize : ℕ → UInt64
  longTermTargetSize : ℕ → UInt64
  partInfo : ℕ → VantagePartInfo
  array : ℕ → LineInfo
  candList : List ℕ
  incomingLineAddr : ℕ
  timestamp : ℕ
  draws : ℕ
  underflow : Bool

/-- What the cache array calls, and the partitioner.  `part` is what the mapper says of the
request. -/
inductive VantageOp
  | update (id part : ℕ)
  | rank (addr : ℕ) (cands : List ℕ)
  | replaced (id : ℕ)
  | setPartitionSizes (sizes : List UInt32)
deriving DecidableEq, Repr

namespace VantageReplPolicy

/-- The constructor, which takes `targetManagedSize` to be `partPortionPct` of the lines. -/
def start (partitions : ℕ) (totalSize assoc targetManagedSize : UInt32)
    (partSlack maxAperture : Float) (partGranularity : UInt32) (smoothTransients : Bool) :
    VantageReplPolicy where
  partitions := partitions
  totalSize := totalSize
  assoc := assoc
  partSlack := partSlack
  maxAperture := maxAperture
  partGranularity := partGranularity
  smoothTransients := smoothTransients
  size := fun p => if p = partitions then UInt64.ofNat totalSize.toNat else 0
  extendedSize := fun p => if p = partitions then UInt64.ofNat totalSize.toNat else 0
  targetSize := fun p => if p = partitions then 0
    else UInt64.ofNat (targetManagedSize.toNat / partitions)
  longTermTargetSize := fun p => if p = partitions then 0
    else UInt64.ofNat (targetManagedSize.toNat / partitions)
  partInfo := fun _ => ⟨0, 0, 0, 0, 0, 0, 0⟩
  array := fun _ => ⟨0, 0, 0, partitions, partitions⟩
  candList := []
  incomingLineAddr := 0
  timestamp := 1
  draws := 0
  underflow := false

section

-- `randInt k n` is the number drawn `k`-th, which was asked for in `[0, n]`
variable (randInt : ℕ → UInt32 → UInt32) (s : VantageReplPolicy)

/-! ### Targets -/

def left (p : ℕ) : Int32 := (s.targetSize p - s.longTermTargetSize p).toUInt32.toInt32

/-- `MAX(left, 0)` -/
def linesOver (p : ℕ) : UInt32 := if 0 < s.left p then (s.left p).toUInt32 else 0

def linesLeft : UInt32 :=
  (List.range s.partitions).foldl (fun linesLeft p => linesLeft + s.linesOver p) 0

/-- The second loop of `takeOneLine`, and the panic after it. -/
def takeFrom (l : UInt32) : List ℕ → UInt32 → Option VantageReplPolicy
  | [], _ => none
  | p :: ps, curLines =>
    if 0 < s.left p ∧ l < curLines + s.linesOver p then
      some { s with targetSize := dec s.targetSize p }
    else takeFrom l ps (curLines + s.linesOver p)

def takeOneLine : Option VantageReplPolicy :=
  if s.smoothTransients ∧ 0 < s.linesLeft then
    takeFrom { s with draws := s.draws + 1 } (randInt s.draws (s.linesLeft - 1))
      (List.range s.partitions) 0
  else none

/-- `while (linesToTakeAway--) takeOneLine();` -/
def takeLines : ℕ → VantageReplPolicy → Option VantageReplPolicy
  | 0, s => some s
  | n + 1, s => (takeOneLine randInt s).bind (takeLines n)

/-- `s[p]`, from the allocation of partition `p`. -/
def sizeOf (alloc : UInt32) : UInt32 := s.totalSize * alloc / s.partGranularity

/-- The step of `setPartitionSizes` for partition `p`, with the lines to take away so far. -/
def setSize (p : ℕ) (alloc : UInt32) (linesToTakeAway : UInt32) : UInt32 × VantageReplPolicy :=
  let sp := (s.sizeOf alloc).toUInt64
  let s' := { s with longTermTargetSize := Function.update s.longTermTargetSize p sp }
  if s.smoothTransients then
    if s.targetSize p < sp then
      let newTarget := (max (s.targetSize p) (min sp (s.size p + 1))).toUInt32
      (linesToTakeAway + (newTarget.toUInt64 - s.targetSize p).toUInt32,
        { s' with targetSize := Function.update s.targetSize p newTarget.toUInt64 })
    else (linesToTakeAway, s')
  else (linesToTakeAway, { s' with targetSize := Function.update s.targetSize p sp })

/-- The loop of `setPartitionSizes`, from partition `p` on. -/
def setSizes : List UInt32 → ℕ → UInt32 → VantageReplPolicy → UInt32 × VantageReplPolicy
  | [], _, linesToTakeAway, s => (linesToTakeAway, s)
  | alloc :: sizes, p, linesToTakeAway, s =>
    let (linesToTakeAway, s) := s.setSize p alloc linesToTakeAway
    setSizes sizes (p + 1) linesToTakeAway s

def setPartitionSizes (sizes : List UInt32) : Option VantageReplPolicy :=
  if sizes.length = s.partitions ∧ s.partGranularity ≠ 0 then
    let (linesToTakeAway, s) := setSizes sizes 0 0 s
    takeLines randInt linesToTakeAway.toNat s
  else none

/-! ### Hits and misses -/

/-- A line of the unmanaged region goes to the partition that hits it. -/
def promote (id part : ℕ) : VantageReplPolicy :=
  let info := s.partInfo part
  { s with
    array := Function.update s.array id { s.array id with p := part }
    partInfo := Function.update s.partInfo part
      { info with curIntervalIns := info.curIntervalIns + 1 }
    underflow := s.underflow || inc s.size part s.partitions == 0
    size := dec (inc s.size part) s.partitions }

/-- The first branch of `update`. -/
def hit (id part : ℕ) : VantageReplPolicy :=
  let s' := if (s.array id).p = s.partitions then s.promote id part else s
  { s' with
    array := Function.update s'.array id { s'.array id with ts := s.timestamp }
    timestamp := s.timestamp + 1 }

/-- The second branch of `update`, up to the targets. -/
def fill (id part : ℕ) : VantageReplPolicy :=
  let e := s.array id
  let info := s.partInfo part
  { s with
    array := Function.update s.array id { e with ts := s.timestamp, p := part, op := part }
    timestamp := s.timestamp + 1
    partInfo := Function.update s.partInfo part
      { info with curIntervalIns := info.curIntervalIns + 1 }
    underflow := s.underflow || s.size e.p == 0 || s.extendedSize e.op == 0
    size := inc (dec s.size e.p) part
    extendedSize := inc (dec s.extendedSize e.op) part }

def miss (id part : ℕ) : Option VantageReplPolicy :=
  let s' := s.fill id part
  if s'.targetSize part < s'.longTermTargetSize part then
    if s'.smoothTransients then
      takeOneLine randInt { s' with targetSize := inc s'.targetSize part }
    else none
  else some s'

/-- `Adjust coarse-grain timestamp` -/
def touch (id : ℕ) : VantageReplPolicy :=
  let p := (s.array id).p
  let info := s.partInfo p
  let curBtsHits := info.curBtsHits + 1
  { s with
    array := Function.update s.array id { s.array id with bts := info.curBts }
    partInfo := Function.update s.partInfo p
      (if (s.size p).toUInt32 / 16 ≤ curBtsHits then
        { info with
          curBts := info.curBts + 1
          setpointBts := info.setpointBts + 1
          curBtsHits := 0 }
      else { info with curBtsHits := curBtsHits }) }

def update (id part : ℕ) : Option VantageReplPolicy :=
  if id < s.totalSize.toNat then
    (if 0 < (s.array id).ts then some (s.hit id part) else s.miss randInt id part).map (touch · id)
  else none

/-! ### Candidates -/

def recordCandidate (id : ℕ) : Option VantageReplPolicy :=
  if s.candList.length < s.assoc.toNat then
    some { s with candList := s.candList ++ [id] }
  else none

/-- The line is below its partition's setpoint: `8-bit distance to current TS`. -/
def belowSetpoint (id : ℕ) : Prop :=
  let e := s.array id
  let info := s.partInfo e.p
  (info.curBts - info.setpointBts) % 256 ≤ (info.curBts - e.bts) % 256

instance (id : ℕ) : Decidable (s.belowSetpoint id) := inferInstanceAs (Decidable (_ ≤ _))

def demote (id : ℕ) : VantageReplPolicy :=
  let p := (s.array id).p
  let info := s.partInfo p
  { s with
    array := Function.update s.array id { s.array id with p := s.partitions }
    partInfo :=
      Function.update s.partInfo p { info with curIntervalDems := info.curIntervalDems + 1 }
    underflow := s.underflow || s.size p == 0
    size := inc (dec s.size p) s.partitions }

/-- `Feedback-based aperture control` -/
def aperture (p : ℕ) : Option Float :=
  let targetSize := (s.targetSize p).toFloat
  let maxSz := targetSize * (1.0 + s.partSlack)
  let curSz := (s.size p).toFloat
  if curSz ≥ maxSz then some s.maxAperture
  else
    let slope := s.maxAperture / (maxSz - targetSize)
    if slope > 0.0 then some (slope * (curSz - targetSize)) else none

/-- The end of an interval. -/
def adjustSetpoint (aperture : Float) (info : VantagePartInfo) : VantagePartInfo :=
  let shrink := info.curIntervalDems.toInt32.toFloat
  let wanted := aperture * info.curIntervalCands.toFloat
  let setpointBts :=
    if aperture > 0.0 then
      if shrink < wanted then
        if info.setpointBts < info.curBts then info.setpointBts + 1 else info.setpointBts
      else if shrink > wanted then
        if info.curBts - info.setpointBts < 255 then info.setpointBts - 1 else info.setpointBts
      else info.setpointBts
    else info.setpointBts
  { info with
    setpointBts := setpointBts
    curIntervalCands := 0
    curIntervalIns := 0
    curIntervalDems := 0
    setpointAdjs := info.setpointAdjs + 1 }

/-- The step of the first loop of `getBestCandidate`. -/
def considerDemotion (s : VantageReplPolicy) (id : ℕ) : Option VantageReplPolicy :=
  let p := (s.array id).p
  if s.totalSize.toNat ≤ id then none
  else if (s.array id).ts = 0 ∨ p = s.partitions ∨
      (s.size p).toUInt32.toUInt64 ≤ s.targetSize p then some s
  else
    let s := if s.belowSetpoint id then s.demote id else s
    let info := s.partInfo p
    let info := { info with curIntervalCands := info.curIntervalCands + 1 }
    if 256 ≤ info.curIntervalCands then
      (s.aperture p).map fun aperture =>
        { s with partInfo := Function.update s.partInfo p (adjustSetpoint aperture info) }
    else some { s with partInfo := Function.update s.partInfo p info }

/-- Whether candidate `e` takes the place of `best`: lines of the unmanaged region go first. -/
def beats (e best : LineInfo) : Bool :=
  if e.p = s.partitions ∧ best.p ≠ s.partitions then true
  else if e.p = s.partitions ∧ best.p = s.partitions then e.ts < best.ts
  else if e.p ≠ s.partitions ∧ best.p = s.partitions then false
  else e.ts < best.ts

/-- The second loop, which stops at an empty line. -/
def bestOf : List ℕ → ℕ → ℕ
  | [], bestId => bestId
  | id :: cands, bestId =>
    if (s.array id).ts = 0 then id
    else bestOf cands (if s.beats (s.array id) (s.array bestId) then id else bestId)

def getBestCandidate : Option (ℕ × VantageReplPolicy) :=
  (s.candList.foldlM considerDemotion s).bind fun s' =>
    s'.candList.head?.map fun first => (s'.bestOf s'.candList first, s')

def rank (addr : ℕ) (cands : List ℕ) : Option (ℕ × VantageReplPolicy) :=
  (cands.foldlM recordCandidate { s with incomingLineAddr := addr }).bind getBestCandidate

def replaced (id : ℕ) : Option VantageReplPolicy :=
  if id < s.totalSize.toNat then
    some { s with
      candList := []
      array := Function.update s.array id
        { s.array id with ts := 0, bts := 0, addr := s.incomingLineAddr } }
  else none

def step : VantageOp → VantageReplPolicy → Option VantageReplPolicy
  | .update id part, s => s.update randInt id part
  | .rank addr cands, s => (s.rank addr cands).map Prod.snd
  | .replaced id, s => s.replaced id
  | .setPartitionSizes sizes, s => s.setPartitionSizes randInt sizes

end

section

variable {s s1 s' : VantageReplPolicy} {id addr : ℕ} {cands : List ℕ}

theorem recordCandidate_cases (h : s.recordCandidate id = some s') :
    s' = { s with candList := s.candList ++ [id] } := by
  unfold recordCandidate at h
  split at h
  · exact (Option.some.inj h).symm
  · cases h

/-- A candidate is demoted or not, and its partition's interval goes on. -/
theorem considerDemotion_cases (h : s.considerDemotion id = some s') :
    s' = s ∨ ∃ s1 partInfo, (s1 = s ∨ id < s.totalSize.toNat ∧ s1 = s.demote id) ∧
      s' = { s1 with partInfo := partInfo } := by
  unfold considerDemotion at h
  dsimp only at h
  split at h
  · cases h
  split at h
  · exact .inl (Option.some.inj h).symm
  right
  have hdemote : (if s.belowSetpoint id then s.demote id else s) = s ∨ id < s.totalSize.toNat ∧
      (if s.belowSetpoint id then s.demote id else s) = s.demote id := by
    by_cases hbelow : s.belowSetpoint id
    · exact .inr ⟨by omega, if_pos hbelow⟩
    · exact .inl (if_neg hbelow)
  generalize (if s.belowSetpoint id then s.demote id else s) = s1 at h hdemote
  split at h
  · obtain ⟨aperture, -, rfl⟩ := Option.map_eq_some_iff.mp h
    exact ⟨s1, _, hdemote, rfl⟩
  · exact ⟨s1, _, hdemote, (Option.some.inj h).symm⟩

theorem rank_cases (h : s.rank addr cands = some (id, s')) :
    ∃ s1, cands.foldlM recordCandidate { s with incomingLineAddr := addr } = some s1 ∧
      s1.candList.foldlM considerDemotion s1 = some s' := by
  obtain ⟨s1, h1, hbest⟩ := Option.bind_eq_some_iff.mp h
  obtain ⟨s2, h2, hlast⟩ := Option.bind_eq_some_iff.mp hbest
  obtain ⟨first, -, heq⟩ := Option.map_eq_some_iff.mp hlast
  obtain ⟨-, rfl⟩ := Prod.mk.inj heq
  exact ⟨s1, h1, h2⟩

end

/-- The partition of a request is one that the mapper knows. -/
def Mapped : VantageOp → VantageReplPolicy → Prop
  | .update _ part, s => part < s.partitions
  | _, _ => True

instance : ∀ (op : VantageOp) (s : VantageReplPolicy), Decidable (Mapped op s)
  | .update _ part, s => inferInstanceAs (Decidable (part < s.partitions))
  | .rank _ _, _ | .replaced _, _ | .setPartitionSizes _, _ => isTrue trivial

end VantageReplPolicy

end Doppelganger.Part
