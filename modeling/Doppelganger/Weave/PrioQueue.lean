import Doppelganger.Lib.Links
import Mathlib.Algebra.Group.Nat.Defs

/-! The priority queue of `prio_queue.h`: a window of `B` blocks of 64 cycles, each with a bitmap of
its occupied cycles and a linked list for each of them, and a map of the elements beyond the window.
Cycles are 64-bit words.  An operation is `none` when an assertion fails, or when the loop of
`dequeue` has not ended after the given number of rounds. -/

namespace Doppelganger.Weave

open Function

variable {ι : Type*} [DecidableEq ι]

structure PQBlock (ι : Type*) where
  array : Nat → Option ι
  occ : BitVec 64

/-- `PrioQueue`, with the `next` fields of the objects. -/
structure PrioQueue (ι : Type*) where
  blocks : Nat → PQBlock ι
  next : ι → Option ι
  feMap : List (Nat × ι)
  curBlock : Nat
  elems : Nat

/-- The object, its offset, and what is left. -/
def PQBlock.dequeue (next : ι → Option ι) (b : PQBlock ι) :
    Option (ι × Nat × PQBlock ι × (ι → Option ι)) :=
  if b.occ = 0 then none
  else
    let pos := b.occ.ctz.toNat
    (b.array pos).map fun res =>
      let occ := if (next res).isNone then b.occ ^^^ 1#64 <<< pos else b.occ
      (res, pos, ⟨update b.array pos (next res), occ⟩, update next res none)

def PQBlock.enqueue (obj : ι) (pos : Nat) (next : ι → Option ι) (b : PQBlock ι) :
    Option (PQBlock ι × (ι → Option ι)) :=
  if (next obj).isNone then
    some (⟨update b.array pos (some obj), b.occ ||| 1#64 <<< pos⟩,
      update next obj (b.array pos))
  else none

/-- `feMap.insert`: behind the elements with the same cycle. -/
def feInsert (cycle : Nat) (obj : ι) (feMap : List (Nat × ι)) : List (Nat × ι) :=
  feMap.takeWhile (fun e => e.1 ≤ cycle) ++ (cycle, obj) :: feMap.dropWhile (fun e => e.1 ≤ cycle)

namespace PrioQueue

def init : PrioQueue ι := ⟨fun _ => ⟨fun _ => none, 0⟩, fun _ => none, [], 0, 0⟩

/-- The object goes into the block of its cycle. -/
def place (B : Nat) (obj : ι) (cycle : Nat) (q : PrioQueue ι) : Option (PrioQueue ι) :=
  ((q.blocks (cycle / 64 % B)).enqueue obj (cycle % 64) q.next).map fun (b, next) =>
    { q with blocks := update q.blocks (cycle / 64 % B) b, next := next }

def enqueue (B : Nat) (obj : ι) (cycle : Nat) (q : PrioQueue ι) : Option (PrioQueue ι) :=
  if q.curBlock ≤ cycle / 64 then
    let queued := if cycle / 64 < q.curBlock + B then q.place B obj cycle
      else some { q with feMap := feInsert cycle obj q.feMap }
    queued.map fun q => { q with elems := q.elems + 1 }
  else none

/-- The loop over `feMap`. -/
def refill (B topCycle : Nat) : List (Nat × ι) → PrioQueue ι → Option (PrioQueue ι)
  | [], q => some { q with feMap := [] }
  | (cycle, obj) :: rest, q =>
    if cycle < topCycle then
      if q.curBlock ≤ cycle / 64 ∧ cycle / 64 < q.curBlock + B then
        (q.place B obj cycle).bind (refill B topCycle rest)
      else none
    else some { q with feMap := (cycle, obj) :: rest }

/-- A round of the loop of `dequeue`. -/
def nextBlock (B : Nat) (q : PrioQueue ι) : Option (PrioQueue ι) :=
  let q := { q with curBlock := (q.curBlock + 1) % 2 ^ 64 }
  if q.curBlock % (B / 2) = 0 ∧ q.feMap.isEmpty = false then
    refill B ((q.curBlock + B) * 64 % 2 ^ 64) q.feMap q
  else some q

/-- The loop of `dequeue`, for so many rounds. -/
def findBlock (B : Nat) : Nat → PrioQueue ι → Option (PrioQueue ι)
  | 0, _ => none
  | fuel + 1, q =>
    if (q.blocks (q.curBlock % B)).occ = 0 then (q.nextBlock B).bind (findBlock B fuel) else some q

/-- The object, `deqCycle` and the queue. -/
def dequeue (B fuel : Nat) (q : PrioQueue ι) : Option (ι × Nat × PrioQueue ι) :=
  if q.elems = 0 then none
  else (q.findBlock B fuel).bind fun q =>
    ((q.blocks (q.curBlock % B)).dequeue q.next).map fun (obj, offset, b, next) =>
      (obj, q.curBlock * 64 + offset, { q with
        blocks := update q.blocks (q.curBlock % B) b
        next := next
        elems := q.elems - 1 })

def size (q : PrioQueue ι) : Nat := q.elems

/-- The first cycle in the blocks from `curBlock + i` on, `n` of them. -/
def firstOccupied (B : Nat) (q : PrioQueue ι) : Nat → Nat → Option Nat
  | _, 0 => none
  | i, n + 1 =>
    let occ := (q.blocks ((q.curBlock + i) % B)).occ
    if occ = 0 then firstOccupied B q (i + 1) n else some ((q.curBlock + i) * 64 + occ.ctz.toNat)

def firstCycle (B : Nat) (q : PrioQueue ι) : Option Nat :=
  if q.elems = 0 then none
  else match q.firstOccupied B 0 (B / 2) with
    | some cycle => some cycle
    | none => match q.firstOccupied B (B / 2) (B - B / 2) with
      | some cycle => match q.feMap with
        | [] => some cycle
        | (far, _) :: _ => some (min cycle far)
      | none => q.feMap.head?.map Prod.fst

end PrioQueue

end Doppelganger.Weave
