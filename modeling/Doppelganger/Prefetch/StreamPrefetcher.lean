import Doppelganger.Types
import Mathlib.Data.List.Range
import Mathlib.Logic.Function.Basic

/-! The `StreamPrefetcher` of `prefetcher.cpp`.  What its parent answers is a part of the request.
An access is `none` when it divides by zero. -/

namespace Doppelganger.Prefetch

open Function

/-- `req`, with the response cycles of `parent->access(req)` and of up to two prefetches. -/
structure Request where
  type : AccessType
  lineAddr : Address
  cycle : UInt64
  respCycle : UInt64
  pfRespCycle : UInt64
  pfRespCycle2 : UInt64
deriving DecidableEq, Repr

/-- A prefetch: the line of the access, that of `pfReq`, the stride, and whether the line was
`valid` before. -/
structure Issued where
  demand : Address
  lineAddr : Address
  stride : Int32
  valid : Bool
deriving DecidableEq, Repr

/-- `conf` is the count of `SatCounter<3, 2, 1>`, and `times pos` the `respCycle` of
`times[pos]`. -/
structure Entry where
  stride : Int32
  conf : Nat
  times : Nat → UInt64
  valid : Nat → Bool
  lastPos : UInt32
  lastLastPos : UInt32
  lastPrefetchPos : UInt32
  lastCycle : UInt64
  ts : UInt64

/-- The page of a line, and its position there. -/
def pageOf (lineAddr : Address) : Address := lineAddr >>> 6

def posOf (lineAddr : Address) : UInt32 := (lineAddr &&& 63).toUInt32

namespace Entry

/-- What the constructor leaves in cleared memory. -/
def init : Entry := ⟨0, 1, fun _ => 0, fun _ => false, 0, 0, 0, 0, 0⟩

def alloc (curCycle : UInt64) (e : Entry) : Entry :=
  { e with
    stride := 1, lastPos := 0, lastLastPos := 0, lastPrefetchPos := 0, conf := 1
    valid := fun _ => false, lastCycle := curCycle }

/-- "1. Did we prefetch-hit?", with the response cycle and `shortPrefetch`. -/
def close (pos : UInt32) (respCycle : UInt64) (e : Entry) : Entry × UInt64 × Bool :=
  if e.valid pos.toNat then
    let pfRespCycle := e.times pos.toNat
    let resp := max pfRespCycle respCycle
    ({ e with
        valid := update e.valid pos.toNat false
        lastCycle := max resp e.lastCycle }, resp, respCycle < pfRespCycle)
  else (e, respCycle, false)

/-- `e.valid[pos] = true;` and `e.times[pos].fill(...)`. -/
def fill (pos : UInt32) (respCycle : UInt64) (e : Entry) : Entry :=
  { e with
    valid := update e.valid pos.toNat true
    times := update e.times pos.toNat respCycle }

/-- `prefetchPos` and `fetchDepth`. -/
def target (pos : UInt32) (stride : Int32) (e : Entry) : UInt32 × Int32 :=
  let fetchDepth := ((e.lastPrefetchPos - e.lastPos) / stride.toUInt32).toInt32
  if fetchDepth < 1 then (pos + stride.toUInt32, 1)
  else (e.lastPrefetchPos + stride.toUInt32, fetchDepth)

/-- "do prefetches" -/
def fetch (req : Request) (pos : UInt32) (stride : Int32) (shortPrefetch : Bool) (e : Entry) :
    Option (Entry × List Issued) :=
  if stride = 0 then none
  else
    let (prefetchPos, fetchDepth) := e.target pos stride
    if prefetchPos < 64 ∧ e.valid prefetchPos.toNat = false then
      let pfAddr := req.lineAddr + prefetchPos.toUInt64 - pos.toUInt64
      let first : Issued := ⟨req.lineAddr, pfAddr, stride, e.valid prefetchPos.toNat⟩
      let e := e.fill prefetchPos req.pfRespCycle
      let next := prefetchPos + stride.toUInt32
      if shortPrefetch = true ∧ fetchDepth < 8 ∧ next < 64 ∧ e.valid next.toNat = false then
        let second : Issued :=
          ⟨req.lineAddr, pfAddr + stride.toInt64.toUInt64, stride, e.valid next.toNat⟩
        some ({ e.fill next req.pfRespCycle2 with lastPrefetchPos := next }, [first, second])
      else some ({ e with lastPrefetchPos := prefetchPos }, [first])
    else some (e, [])

/-- The branch in which the stride is another one. -/
def mispredict (pos : UInt32) (stride : Int32) (e : Entry) : Entry :=
  let e := { e with conf := e.conf - 1 }
  let lastStride := (e.lastPos - e.lastLastPos).toInt32
  let e :=
    if e.conf < 2 ∧ stride ≠ 0 ∧ stride ≠ e.stride ∧ stride = lastStride then
      { e with conf := 1, stride := stride }
    else e
  { e with lastPrefetchPos := pos }

/-- "2. Update predictors, issue prefetches" -/
def predict (req : Request) (pos : UInt32) (shortPrefetch : Bool) (e : Entry) :
    Option (Entry × List Issued) :=
  let stride := (pos - e.lastPos).toInt32
  if e.stride = stride then
    let e := { e with conf := min (e.conf + 1) 3 }
    if 2 ≤ e.conf then e.fetch req pos stride shortPrefetch else some (e, [])
  else some (e.mispredict pos stride, [])

/-- An entry hit. -/
def hit (req : Request) (e : Entry) : Option (Entry × UInt64 × List Issued) :=
  let pos := posOf req.lineAddr
  let (e, respCycle, shortPrefetch) := e.close pos req.respCycle
  (e.predict req pos shortPrefetch).map fun (e', issued) =>
    ({ e' with lastLastPos := e.lastPos, lastPos := pos }, respCycle, issued)

end Entry

structure StreamPrefetcher where
  timestamp : UInt64
  tag : Nat → Address
  array : Nat → Entry

namespace StreamPrefetcher

/-- The constructor, in cleared memory. -/
def init : StreamPrefetcher := ⟨0, fun _ => 0, fun _ => Entry.init⟩

/-- The first loop: the last entry of the page, where `16` is `none`. -/
def find (pageAddr : Address) (s : StreamPrefetcher) : Option Nat :=
  (List.range 16).foldl (fun idx i => if pageAddr = s.tag i then some i else idx) none

/-- The loop over the candidates, with `cand` and `candScore`. -/
def victim (reqCycle : UInt64) (s : StreamPrefetcher) : Option Nat :=
  ((List.range 16).foldl (fun (best : Option Nat × UInt64) i =>
    if reqCycle + 500 < (s.array i).lastCycle then best
    else if (s.array i).ts < best.2 then (some i, (s.array i).ts)
    else best) (none, -1)).1

/-- An entry miss. -/
def miss (req : Request) (s : StreamPrefetcher) : StreamPrefetcher :=
  (s.victim req.cycle).elim s fun idx =>
    { timestamp := s.timestamp + 1
      tag := update s.tag idx (pageOf req.lineAddr)
      array := update s.array idx
        { (s.array idx).alloc req.cycle with
          lastPos := posOf req.lineAddr
          ts := s.timestamp } }

/-- The response cycle, and the prefetches. -/
def access (req : Request) (s : StreamPrefetcher) :
    Option (StreamPrefetcher × UInt64 × List Issued) :=
  if req.type ≠ .GETS then some (s, req.respCycle, [])
  else (s.find (pageOf req.lineAddr)).elim (some (s.miss req, req.respCycle, [])) fun idx =>
    (({ s.array idx with ts := s.timestamp } : Entry).hit req).map fun (e, respCycle, issued) =>
      ({ s with timestamp := s.timestamp + 1, array := update s.array idx e }, respCycle, issued)

def step (req : Request) (s : StreamPrefetcher) : Option StreamPrefetcher :=
  (s.access req).map Prod.fst

/-- The prefetches of an access. -/
def issued (req : Request) (s : StreamPrefetcher) : List Issued :=
  (s.access req).elim [] (·.2.2)

end StreamPrefetcher

end Doppelganger.Prefetch
