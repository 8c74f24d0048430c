import Doppelganger.Types
import Mathlib.Logic.Function.Basic
import Mathlib.Data.List.Range

/-! The tag and data arrays of `DPG_Array` and the operations of `doppelganger_cache.cpp` on them.
A link or index of `-1` is `none`.  An operation is `none` when the source would index an array
with `-1`, fail an assertion on an index, or not leave the loop of `evict_data`.  What `get_map`
returns and what the replacement policies choose are arguments of each operation. -/

namespace Doppelganger.Dpg

open Function

/-- `DATA_SCALE`: tag lines per data line. -/
def dataScale : Nat := 2

/-- A call `cc_dpg->processEviction(req, addr, lineId, cycle)`. -/
structure Eviction where
  addr : Address
  lineId : Nat
deriving DecidableEq, Repr

/-- `array_t` and `array_d`, one function for each field of `Tag` and of `Data`, with the
evictions sent to the coherence controller so far. -/
structure DpgArray where
  next : Nat → Option Nat
  prev : Nat → Option Nat
  addr : Nat → Address
  dataId : Nat → Option Nat
  mapValue : Nat → Int32
  tagHeadId : Nat → Option Nat
  evictions : List Eviction

/-- The parameters of the constructor, with the two assertions that it makes on the numbers of
sets.  `hash` is `hf->hash(0, ·)`. -/
structure Config where
  numLines : Nat
  assoc : Nat
  hash : UInt64 → UInt64
  pow2_t : isPow2 (numLines / assoc) = true
  pow2_d : isPow2 (numLines / assoc / dataScale) = true

namespace Config

variable (cfg : Config)

def numSetsT : Nat := cfg.numLines / cfg.assoc

def numSetsD : Nat := cfg.numSetsT / dataScale

def setMaskT : Nat := cfg.numSetsT - 1

def setMaskD : Nat := cfg.numSetsD - 1

/-- `first_t` for a line address. -/
def firstT (lineAddr : Address) : Nat := ((cfg.hash lineAddr).toNat &&& cfg.setMaskT) * cfg.assoc

/-- `first_d` for a map, which the call of `hash` extends with its sign to 64 bits. -/
def firstD (map : Int32) : Nat :=
  ((cfg.hash map.toInt64.toUInt64).toNat &&& cfg.setMaskD) * cfg.assoc

/-- The tag ids that the loops over a tag set run through. -/
def tagSet (lineAddr : Address) : List Nat := List.range' (cfg.firstT lineAddr) cfg.assoc

/-- The data ids that the loops over a data set run through. -/
def dataSet (map : Int32) : List Nat := List.range' (cfg.firstD map) cfg.assoc

end Config

/-- What `rankCands` of the tag policy and of the data policy return for the candidates
`[first, first + assoc)`: one of the candidates. -/
structure RankCands (assoc : Nat) where
  tag : Nat → Nat
  data : Nat → Nat
  tag_mem : ∀ first, first ≤ tag first ∧ tag first < first + assoc
  data_mem : ∀ first, first ≤ data first ∧ data first < first + assoc

/-- The arrays after the constructor. -/
def init : DpgArray where
  next _ := none
  prev _ := none
  addr _ := -1
  dataId _ := none
  mapValue _ := -1
  tagHeadId _ := none
  evictions := []

/-- The last four stores of `remove_tag`. -/
def clearTag (t : Nat) (s : DpgArray) : DpgArray :=
  { s with
    next := update s.next t none
    prev := update s.prev t none
    addr := update s.addr t (-1)
    dataId := update s.dataId t none }

def removeTag (t : Nat) (s : DpgArray) : Option DpgArray :=
  match s.prev t, s.next t with
  | some p, some n => some <| clearTag t
      { s with next := update s.next p (some n), prev := update s.prev n (some p) }
  | some p, none => (s.dataId t).map fun d => clearTag t
      { s with next := update s.next p none, tagHeadId := update s.tagHeadId d (some p) }
  | none, some n => some <| clearTag t { s with prev := update s.prev n none }
  | none, none => (s.dataId t).map fun d => clearTag t
      { s with
        mapValue := update s.mapValue d (-1)
        tagHeadId := update s.tagHeadId d none }

def addTag (t d : Nat) (s : DpgArray) : DpgArray :=
  let linked := match s.tagHeadId d with
    | some h => { s with prev := update s.prev t (some h), next := update s.next h (some t) }
    | none => s
  { linked with
    dataId := update linked.dataId t (some d)
    tagHeadId := update linked.tagHeadId d (some t) }

variable (cfg : Config)

def lookupData (map : Int32) (s : DpgArray) : Option Nat :=
  (cfg.dataSet map).find? fun d =>
    s.mapValue d == map && (s.tagHeadId d).isSome

def evictTag (tagId : Option Nat) (s : DpgArray) : Option DpgArray :=
  match tagId with
  | none => some s
  | some t =>
    if t < cfg.numLines then
      removeTag t { s with
        evictions := s.evictions ++ [⟨s.addr t, t + cfg.numLines⟩] }
    else none

/-- The loop of `evict_data`, for at most `fuel` rounds. -/
def evictLoop (d : Nat) : Nat → DpgArray → Option DpgArray
  | 0, _ => none
  | fuel + 1, s =>
    (evictTag cfg (s.tagHeadId d) s).bind fun s =>
      if (s.tagHeadId d).isSome then evictLoop d fuel s else some s

/-- A list of tags has at most `numLines` members, so that many rounds do. -/
def evictData (d : Nat) (s : DpgArray) : Option DpgArray :=
  if d < cfg.numLines / dataScale then evictLoop cfg d cfg.numLines s else none

def getFreeData (rank : RankCands cfg.assoc) (map : Int32) (s : DpgArray) :
    Option (Nat × DpgArray) :=
  match (cfg.dataSet map).find? fun d => (s.tagHeadId d).isNone with
  | some d => some (d, s)
  | none =>
    let d := rank.data (cfg.firstD map)
    (evictData cfg d s).map fun s => (d, s)

def getFreeTag (rank : RankCands cfg.assoc) (lineAddr : Address) (s : DpgArray) :
    Option (Nat × DpgArray) :=
  match (cfg.tagSet lineAddr).find? fun t => (s.dataId t).isNone with
  | some t => some (t, s)
  | none =>
    let t := rank.tag (cfg.firstT lineAddr)
    (evictTag cfg (some t) s).map fun s => (t, s)

/-- The stores with which `lookup` and `preinsert` make tag `t` the only sharer of a data line
that they freed for `map`. -/
def claimData (t d : Nat) (map : Int32) (s : DpgArray) : DpgArray :=
  { s with
    dataId := update s.dataId t (some d)
    mapValue := update s.mapValue d map
    tagHeadId := update s.tagHeadId d (some t) }

/-- The code that `lookup` and `preinsert` share: tag `t`, which is in no list, joins the data
line with the map `map`, or a data line freed for it. -/
def joinData (rank : RankCands cfg.assoc) (t : Nat) (map : Int32) (s : DpgArray) :
    Option DpgArray :=
  match lookupData cfg map s with
  | some d => some (addTag t d s)
  | none => (getFreeData cfg rank map s).map fun (d, s) => claimData t d map s

/-- The branch of `lookup` for a hit on tag `t`, on whose data line `get_map` now returns `map`. -/
def refreshMap (rank : RankCands cfg.assoc) (t : Nat) (map : Int32) (s : DpgArray) :
    Option DpgArray :=
  (s.dataId t).bind fun d =>
    if map ≠ s.mapValue d then (removeTag t s).bind (joinData cfg rank t map)
    else some s

/-- The loop of `lookup` over the tags of a set. -/
def lookupLoop (rank : RankCands cfg.assoc) (lineAddr : Address) (map : Int32) :
    List Nat → DpgArray → Option (Option Nat × DpgArray)
  | [], s => some (none, s)
  | t :: ts, s =>
    if s.addr t = lineAddr ∧ (s.dataId t).isSome then
      (refreshMap cfg rank t map s).bind fun s =>
        if (s.dataId t).isSome then some (some (t + cfg.numLines), s)
        else lookupLoop rank lineAddr map ts s
    else lookupLoop rank lineAddr map ts s

/-- The id of the line, or `none` for `-1`.  `map` is what `get_map` returns in this call. -/
def lookup (rank : RankCands cfg.assoc) (lineAddr : Address) (map : Int32) (s : DpgArray) :
    Option (Option Nat × DpgArray) :=
  lookupLoop cfg rank lineAddr map (cfg.tagSet lineAddr) s

def preinsert (rank : RankCands cfg.assoc) (lineAddr : Address) (map : Int32) (s : DpgArray) :
    Option (Nat × DpgArray) :=
  (getFreeTag cfg rank lineAddr s).bind fun (t, s) =>
    (joinData cfg rank t map s).map fun s => (t + cfg.numLines, s)

def postinsert (lineAddr : Address) (candidateT : Nat) (s : DpgArray) : DpgArray :=
  { s with addr := update s.addr (candidateT - cfg.numLines) lineAddr }

/-- `preinsert` and the `postinsert` that follows it. -/
def insert (rank : RankCands cfg.assoc) (lineAddr : Address) (map : Int32) (s : DpgArray) :
    Option (Nat × DpgArray) :=
  (preinsert cfg rank lineAddr map s).map fun (lineId, s) =>
    (lineId, postinsert cfg lineAddr lineId s)

end Doppelganger.Dpg
