import Doppelganger.Types
import Doppelganger.Lib.Run
import Mathlib.Data.List.Range
import Mathlib.Logic.Function.Basic

/-! The `ZArray` of `cache_arrays.cpp`.  A line stays at its id, and `lookupArray` says which line
is at a position.  The replacement policy's choice is an argument of `preinsert`, and an operation
is `none` when it panics, fails an assertion or writes behind `candidates` or `swapArray`. -/

namespace Doppelganger.ZCache

open Function

/-- The index `-1` of a parent is `none`. -/
structure ZWalkInfo where
  pos : Nat
  lineId : Nat
  parentIdx : Option Nat
deriving DecidableEq, Repr

/-- The parameters of the constructor, with its assertions.  `hash` is `hf->hash`. -/
structure Config where
  numLines : Nat
  ways : Nat
  cands : Nat
  hash : Nat → Address → UInt64
  two_le : 1 < ways
  le_cands : ways ≤ cands
  dvd : numLines % ways = 0
  pow2 : isPow2 (numLines / ways) = true

/-- The fields that change.  `swapArray` has `swapArrayLen` entries. -/
structure ZArray where
  array : Nat → Address
  lookupArray : Nat → Nat
  swapArray : List Nat
  lastCandIdx : Nat

/-- The variables of the loop of `preinsert`, with the entries of `candidates` up to
`numCandidates`. -/
structure Walk where
  candidates : List ZWalkInfo
  allValid : Bool
  fringeStart : Nat

namespace Config

variable (cfg : Config)

def numSets : Nat := cfg.numLines / cfg.ways

def setMask : Nat := cfg.numSets - 1

/-- `w*numSets + (hf->hash(w, lineAddr) & setMask)` -/
def position (w : Nat) (lineAddr : Address) : Nat :=
  w * cfg.numSets + ((cfg.hash w lineAddr).toNat &&& cfg.setMask)

/-- The positions that the loops over the ways run through. -/
def positions (lineAddr : Address) : List Nat :=
  (List.range cfg.ways).map fun w => cfg.position w lineAddr

/-- The arrays after the constructor. -/
def init : ZArray := ⟨fun _ => 0, id, [], 0⟩

/-- The loop of `lookup`. -/
def find (lineAddr : Address) (z : ZArray) : Option Nat :=
  ((cfg.positions lineAddr).map z.lookupArray).find? fun lineId => z.array lineId = lineAddr

def lookup (lineAddr : Address) (z : ZArray) : Option (Option Nat) :=
  if lineAddr = 0 then none else some (cfg.find lineAddr z)

/-! ### The walk of `preinsert` -/

def seeds (lineAddr : Address) (z : ZArray) : Walk :=
  let candidates := (cfg.positions lineAddr).map fun pos => ⟨pos, z.lookupArray pos, none⟩
  ⟨candidates, candidates.all fun cand => z.array cand.lineId ≠ 0, 0⟩

/-- One candidate of the fringe.  The line of the fringe itself is written too, and the next
candidate is written over it. -/
def expandPos (z : ZArray) (fringe : ZWalkInfo) (s : Walk) (pos : Nat) : Option Walk :=
  let lineId := z.lookupArray pos
  if s.candidates.length < cfg.cands + cfg.ways then
    some { s with
      candidates := if lineId ≠ fringe.lineId then
          s.candidates ++ [⟨pos, lineId, some s.fringeStart⟩]
        else s.candidates
      allValid := s.allValid && z.array lineId ≠ 0 }
  else none

/-- The body of the loop. -/
def expand (z : ZArray) (s : Walk) : Option Walk :=
  s.candidates[s.fringeStart]?.bind fun fringe =>
    let fringeAddr := z.array fringe.lineId
    if fringeAddr ≠ 0 then
      ((cfg.positions fringeAddr).foldlM (cfg.expandPos z fringe) s).map fun s =>
        { s with fringeStart := s.fringeStart + 1 }
    else none

/-- The loop, which is `none` when it has not ended after `fuel` rounds. -/
def walk (z : ZArray) : Nat → Walk → Option Walk
  | 0, _ => none
  | fuel + 1, s =>
    if s.candidates.length < cfg.cands ∧ s.allValid then (cfg.expand z s).bind (walk z fuel)
    else some s

/-- The candidates that `rankCands` can choose from. -/
def candidates (lineAddr : Address) (z : ZArray) : Option (List ZWalkInfo) :=
  (cfg.walk z cfg.cands (cfg.seeds lineAddr z)).bind fun s =>
    if s.allValid → cfg.cands ≤ s.candidates.length then some (s.candidates.take cfg.cands)
    else none

/-- The positions from the candidate `idx` up to a seed.  There is room for `room` of them. -/
def swaps (candidates : List ZWalkInfo) : Nat → Option Nat → Option (List Nat)
  | _, none => some []
  | 0, some _ => none
  | room + 1, some idx => candidates[idx]?.bind fun cand =>
    (swaps candidates room cand.parentIdx).map (cand.pos :: ·)

/-- The line id, and the address of the line that is replaced. -/
def preinsert (lineAddr : Address) (bestCandidate : Nat) (z : ZArray) :
    Option (Nat × Address × ZArray) :=
  (cfg.candidates lineAddr z).bind fun candidates =>
    if bestCandidate < cfg.numLines then
      (candidates.findIdx? fun cand => cand.lineId = bestCandidate).bind fun minIdx =>
        (swaps candidates (cfg.cands / cfg.ways + 2) (some minIdx)).map fun swapArray =>
          (bestCandidate, z.array bestCandidate,
            { z with swapArray := swapArray, lastCandIdx := minIdx })
    else none

end Config

/-! ### The swaps of `postinsert` -/

def swap : List Nat → Nat → (Nat → Nat) → Nat → Nat
  | [], _, lookupArray => lookupArray
  | [pos], candidate, lookupArray => update lookupArray pos candidate
  | pos :: next :: rest, candidate, lookupArray =>
    swap (next :: rest) candidate (update lookupArray pos (lookupArray next))

def postinsert (lineAddr : Address) (candidate : Nat) (z : ZArray) : Option ZArray :=
  match z.swapArray with
  | [] => none
  | pos :: _ =>
    if z.lookupArray pos = candidate then
      some { z with
        lookupArray := swap z.swapArray candidate z.lookupArray
        array := update z.array candidate lineAddr }
    else none

/-! ### Sequences of calls -/

inductive ZOp
  | lookup (lineAddr : Address)
  | preinsert (lineAddr : Address) (bestCandidate : Nat)
  | postinsert (lineAddr : Address) (candidate : Nat)
deriving DecidableEq, Repr

/-- What the last `preinsert` was called with and returned. -/
structure Insertion where
  lineAddr : Address
  lineId : Nat
  wbLineAddr : Address
deriving DecidableEq, Repr

/-- The arrays, with the insertion that waits for `postinsert`. -/
structure Calls where
  z : ZArray
  pending : Option Insertion

namespace Config

variable (cfg : Config)

def step : ZOp → Calls → Option Calls
  | .lookup lineAddr, s => (cfg.lookup lineAddr s.z).map fun _ => s
  | .preinsert lineAddr bestCandidate, s =>
    (cfg.preinsert lineAddr bestCandidate s.z).map fun (lineId, wbLineAddr, z) =>
      ⟨z, some ⟨lineAddr, lineId, wbLineAddr⟩⟩
  | .postinsert lineAddr candidate, s => (postinsert lineAddr candidate s.z).map (⟨·, none⟩)

/-- `Cache::access` inserts an address that `lookup` did not find, with lookups at most between
`preinsert` and `postinsert`, and `rankCands` returns a candidate. -/
def Allowed : ZOp → Calls → Prop
  | .lookup lineAddr, _ => lineAddr ≠ 0
  | .preinsert lineAddr bestCandidate, s => cfg.lookup lineAddr s.z = some none ∧
      ∃ candidates ∈ cfg.candidates lineAddr s.z, ∃ cand ∈ candidates, cand.lineId = bestCandidate
  | .postinsert lineAddr candidate, s =>
      ∃ i ∈ s.pending, i.lineAddr = lineAddr ∧ i.lineId = candidate

instance : ∀ (op : ZOp) (s : Calls), Decidable (cfg.Allowed op s)
  | .lookup _, _ => inferInstanceAs (Decidable (_ ≠ _))
  | .preinsert .., _ => inferInstanceAs (Decidable (_ ∧ ∃ candidates ∈ _, ∃ cand ∈ candidates, _))
  | .postinsert .., _ => inferInstanceAs (Decidable (∃ i ∈ _, _ ∧ _))

end Config

end Doppelganger.ZCache
