import Doppelganger.Approx.Regions
import Doppelganger.Llc.Arrays
import Doppelganger.Mesi.Hierarchy

/-! The last-level `Cache` with a Doppelganger array, inclusive and with atomic accesses.  Each
request is routed to one of the two arrays by `isApprox`, and one coherence controller keeps the
states of the lines of both: the ids below `numLines` are those of the exact array.  The directory
and the children are those of `Mesi`; here only what they do to the states of the cache is left.
The two sides of the merge conflict in `cache.cpp` differ in comments and logging only.
An operation is `none` when the source panics, fails an assertion or follows a null pointer. -/

namespace Doppelganger.Llc

open Function Dpg Approx

/-- The cache, with the region tree.  `state` is the array of the bottom controller, and the ghost
`owner` the line that the controller last worked on with a line id. -/
structure Cache {cfg : Config} (exact : CacheArray cfg.numLines) where
  array : exact.State
  arrayDpg : DpgArray
  state : Nat → MESIState
  owner : Nat → Address
  approxTree : Tree

/-- A request of a child.  What does not depend on the cache comes with it: the answers of `get_map`
and of the replacement policies, and whether the invalidations that it causes find dirty data in
another child. -/
structure Request {cfg : Config} (exact : CacheArray cfg.numLines) where
  type : AccessType
  lineAddr : Address
  flags : Mesi.Flags
  map : Int32
  rank : exact.Rank
  rankDpg : RankCands cfg.assoc
  lowerLevelWriteback : Bool

inductive Op {cfg : Config} (exact : CacheArray cfg.numLines)
  | access (req : Request exact)
  | invalidate (type : InvType) (lineAddr : Address) (map : Int32) (rankDpg : RankCands cfg.assoc)
  | region (op : RegionOp)

/-- `MESICC::shouldAllocate`, which panics on a PUTS or PUTX: the cache lost inclusion. -/
def shouldAllocate : AccessType → Option Unit
  | .GETS | .GETX => some ()
  | .PUTS | .PUTX => none

/-- `MESIBottomCC::processAccess` of a cache whose parent is memory. -/
def bccProcessAccess (type : AccessType) (flags : Mesi.Flags) (s : MESIState) : Option MESIState :=
  (Mesi.bccProcessAccess type [] (.terminal s) (Mesi.access type flags [])).map
    fun (_, node) => node.state

section

variable {cfg : Config} {exact : CacheArray cfg.numLines}

/-- `MESICC::processAccess` on a line id that is not `-1`. -/
def processAccess (req : Request exact) (lineId : Nat) (s : Cache exact) : Option (Cache exact) :=
  if (req.type = .PUTS ∨ req.type = .PUTX) ∧ s.state lineId = .I then none
  else (bccProcessAccess req.type req.flags (s.state lineId)).map fun st =>
    let st := if req.lowerLevelWriteback ∧ st = .E then .M else st
    { s with state := update s.state lineId st, owner := update s.owner lineId req.lineAddr }

/-- `MESICC::processEviction`, whatever it sends up. -/
def processEviction (lineId : Nat) (s : Cache exact) : Cache exact :=
  { s with state := update s.state lineId .I }

/-- The calls of `processEviction` that an operation of the Doppelganger array made. -/
def sendEvictions (s : Cache exact) : Cache exact :=
  s.arrayDpg.evictions.foldl (fun s e => processEviction e.lineId s)
    { s with arrayDpg := { s.arrayDpg with evictions := [] } }

/-- The branch of `Cache::access` for lines that are approximate. -/
def accessDpg (req : Request exact) (s : Cache exact) : Option (Cache exact) :=
  (lookup cfg req.rankDpg req.lineAddr req.map s.arrayDpg).bind fun (lineId, arrayDpg) =>
    let s := sendEvictions { s with arrayDpg := arrayDpg }
    match lineId with
    | some lineId => processAccess req lineId s
    | none => (shouldAllocate req.type).bind fun _ =>
      (insert cfg req.rankDpg req.lineAddr req.map s.arrayDpg).bind fun (lineId, arrayDpg) =>
        processAccess req lineId (sendEvictions { s with arrayDpg := arrayDpg })

/-- The other branch of `Cache::access`. -/
def accessExact (req : Request exact) (s : Cache exact) : Option (Cache exact) :=
  match exact.lookup req.lineAddr s.array with
  | some lineId => processAccess req lineId s
  | none => (shouldAllocate req.type).bind fun _ =>
    let ((lineId, _), array) := exact.preinsert req.rank req.lineAddr s.array
    let s := processEviction lineId { s with array := array }
    processAccess req lineId { s with array := exact.postinsert req.lineAddr lineId s.array }

variable (lineBits : Fin 32)

def access (req : Request exact) (s : Cache exact) : Option (Cache exact) :=
  (isApprox lineBits req.lineAddr s.approxTree).bind fun approx =>
    if approx then accessDpg req s else accessExact req s

/-- `MESICC::processInv`. -/
def processInv (type : InvType) (lineId : Nat) (s : Cache exact) : Option (Cache exact) :=
  (Mesi.bccProcessInval type (s.state lineId) false).map fun (st, _) =>
    { s with state := update s.state lineId st }

/-- `Cache::finishInvalidate`.  The Doppelganger array gets no controller for its evictions. -/
def finishInvalidate (type : InvType) (lineAddr : Address) (map : Int32)
    (rankDpg : RankCands cfg.assoc) (s : Cache exact) : Option (Cache exact) :=
  (isApprox lineBits lineAddr s.approxTree).bind fun approx =>
    if approx then
      (lookup cfg rankDpg lineAddr map s.arrayDpg).bind fun (lineId, arrayDpg) =>
        if arrayDpg.evictions = [] then
          lineId.bind fun lineId => processInv type lineId { s with arrayDpg := arrayDpg }
        else none
    else (exact.lookup lineAddr s.array).bind fun lineId => processInv type lineId s

def regionCall : RegionOp → Tree → Option Tree
  | .register baseAddr range dataType => registerApproxRegion lineBits baseAddr range dataType
  | .deregister baseAddr => deregisterApproxRegion baseAddr

def step : Op exact → Cache exact → Option (Cache exact)
  | .access req, s => access lineBits req s
  | .invalidate type lineAddr map rankDpg, s =>
    finishInvalidate lineBits type lineAddr map rankDpg s
  | .region op, s => (regionCall lineBits op s.approxTree).map fun t => { s with approxTree := t }

end

/-- The cache after the constructors. -/
def start {cfg : Config} (exact : CacheArray cfg.numLines) : Cache exact where
  array := exact.init
  arrayDpg := init
  state _ := .I
  owner _ := 0
  approxTree := alloc

end Doppelganger.Llc
