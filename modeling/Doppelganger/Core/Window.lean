import Doppelganger.Lib.Ascending
import Doppelganger.Lib.Run
import Mathlib.Algebra.Group.Int.Defs
import Mathlib.Algebra.Group.Nat.Defs

/-! `WindowStructure<H, WSZ>` of `ooo_core.h`.  The reservations of the next cycles are in two
circular windows of `H` cycles, and those of later cycles in an ordered map.  Cycles are natural
numbers; the 32-bit delays and positions wrap. -/

namespace Doppelganger.Core

open Lib Function

/-- The ports that are taken in a cycle, and how many of them by uops of the window. -/
structure WinCycle where
  occUnits : BitVec 8
  count : ℕ
deriving DecidableEq, Repr

/-- An entry of a cycle with no reservations. -/
def WinCycle.empty : WinCycle := ⟨0, 0⟩

/-- `ubWin` is in the order of its keys.  `curCycle` is the clock of the core, which is passed by
reference. -/
structure WindowStructure where
  curWin : ℕ → WinCycle
  nextWin : ℕ → WinCycle
  ubWin : List (ℕ × WinCycle)
  occupancy : ℕ
  curPos : ℕ
  lastPort : ℕ
  curCycle : ℕ

inductive WindowOp
  | schedule (schedCycle : ℕ) (portMask : BitVec 8) (extraSlots : ℕ)
  | poisonRange (targetCycle : ℕ) (portMask : BitVec 8)
  | advancePos
  | longAdvance (targetCycle : ℕ)
deriving DecidableEq, Repr

/-- The ports of a mask, in order. -/
def portsOf (mask : BitVec 8) : List ℕ := (List.range 8).filter mask.getLsbD

/-- `__builtin_ffs(availMask) - 1`. -/
def firstAvail (availMask : BitVec 8) : ℕ := ((portsOf availMask).head?).getD 0

/-- The entry after a request for a port of `portMask`, and the `availMask`, which is 0 when the
request fails. -/
def trySchedule (touchOccupancy : Bool) (wc : WinCycle) (portMask : BitVec 8) :
    WinCycle × BitVec 8 :=
  let availMask := ~~~wc.occUnits &&& portMask
  if touchOccupancy then
    if availMask ≠ 0 then
      (⟨wc.occUnits ||| 1#8 <<< firstAvail availMask, wc.count + 1⟩, availMask)
    else (wc, availMask)
  else (⟨wc.occUnits ||| portMask, wc.count⟩, availMask)

namespace WindowStructure

def init (curCycle : ℕ) : WindowStructure where
  curWin := fun _ => .empty
  nextWin := fun _ => .empty
  ubWin := []
  occupancy := 0
  curPos := 0
  lastPort := 0
  curCycle := curCycle

/-! ### The clock -/

/-- The loop of a rebase: the entries of the map that are in `nextWin` now go there. -/
def fillNext (H curCycle : ℕ) : List (ℕ × WinCycle) → (ℕ → WinCycle) →
    Option ((ℕ → WinCycle) × List (ℕ × WinCycle))
  | [], nextWin => some (nextWin, [])
  | (cycle, wc) :: rest, nextWin =>
    if cycle < curCycle + 2 * H then
      let nextWinPos := (((cycle : ℤ) - H - curCycle) % 2 ^ 32).toNat
      if nextWinPos < H then fillNext H curCycle rest (update nextWin nextWinPos wc) else none
    else some (nextWin, (cycle, wc) :: rest)

def advancePos (H : ℕ) (s : WindowStructure) : Option WindowStructure :=
  let s := { s with
    occupancy := s.occupancy - (s.curWin s.curPos).count
    curWin := update s.curWin s.curPos .empty
    curPos := s.curPos + 1
    curCycle := s.curCycle + 1 }
  if s.curPos = H then
    -- `std::swap`: what is filled is the old `curWin`
    (fillNext H s.curCycle s.ubWin s.curWin).map fun (nextWin, ubWin) =>
      { s with curWin := s.nextWin, nextWin := nextWin, ubWin := ubWin, curPos := 0 }
  else some s

/-! ### Requests -/

/-- The loop over a window, with the positions left: the window after a request that it can take,
the position, and the `availMask`. -/
def tryWindow (touchOccupancy : Bool) (portMask : BitVec 8) (win : ℕ → WinCycle) :
    ℕ → ℕ → Option ((ℕ → WinCycle) × ℕ × BitVec 8)
  | 0, _ => none
  | n + 1, pos =>
    let (wc, availMask) := trySchedule touchOccupancy (win pos) portMask
    if availMask ≠ 0 then some (update win pos wc, pos, availMask)
    else tryWindow touchOccupancy portMask win n (pos + 1)

/-- A new entry of the map; the request is asserted to succeed. -/
def insertNew (touchOccupancy : Bool) (portMask : BitVec 8) (schedCycle : ℕ)
    (rest : List (ℕ × WinCycle)) : Option (List (ℕ × WinCycle) × ℕ × BitVec 8) :=
  let (wc, availMask) := trySchedule touchOccupancy .empty portMask
  if availMask ≠ 0 then some ((schedCycle, wc) :: rest, schedCycle, availMask) else none

/-- `lower_bound`, and the loop from there on. -/
def tryMap (touchOccupancy : Bool) (portMask : BitVec 8) : List (ℕ × WinCycle) → ℕ →
    Option (List (ℕ × WinCycle) × ℕ × BitVec 8)
  | [], schedCycle => insertNew touchOccupancy portMask schedCycle []
  | (cycle, wc) :: rest, schedCycle =>
    if cycle < schedCycle then
      (tryMap touchOccupancy portMask rest schedCycle).map fun (rest, r) => ((cycle, wc) :: rest, r)
    else if cycle ≠ schedCycle then
      insertNew touchOccupancy portMask schedCycle ((cycle, wc) :: rest)
    else
      let (wc', availMask) := trySchedule touchOccupancy wc portMask
      if availMask ≠ 0 then some ((cycle, wc') :: rest, schedCycle, availMask)
      else (tryMap touchOccupancy portMask rest (schedCycle + 1)).map fun (rest, r) =>
        ((cycle, wc) :: rest, r)

/-- `scheduleInternal` from the delay on, without the counters: the structure, the `schedCycle`, and
the `availMask`. -/
def place (H : ℕ) (touchOccupancy : Bool) (portMask : BitVec 8) (schedCycle : ℕ)
    (s : WindowStructure) : Option (WindowStructure × ℕ × BitVec 8) :=
  let delay := if s.curCycle < schedCycle then (schedCycle - s.curCycle) % 2 ^ 32 else 0
  let curWinPos := (s.curPos + delay) % 2 ^ 32
  match tryWindow touchOccupancy portMask s.curWin (H - curWinPos) curWinPos with
  | some (win, pos, availMask) =>
    some ({ s with curWin := win }, s.curCycle + (pos - s.curPos), availMask)
  | none =>
    -- the loop ends at `H` when it starts before `H`
    let nextWinPos := max curWinPos H - H
    match tryWindow touchOccupancy portMask s.nextWin (H - nextWinPos) nextWinPos with
    | some (win, pos, availMask) =>
      some ({ s with nextWin := win }, s.curCycle + (pos + H - s.curPos), availMask)
    | none =>
      let nextWinPos := max nextWinPos H
      (tryMap touchOccupancy portMask s.ubWin (s.curCycle + (nextWinPos + H - s.curPos))).map
        fun (ubWin, r) => ({ s with ubWin := ubWin }, r)

/-- `If the window is full, advance curPos until it's not`, for as many cycles as are given. -/
def drain (H WSZ : ℕ) : ℕ → WindowStructure → Option WindowStructure
  | n, s =>
    if s.occupancy = WSZ then
      match n with
      | 0 => none
      | n + 1 => (s.advancePos H).bind (drain H WSZ n)
    else some s

/-- The first cycle after the keys of the map. -/
def mapEnd (l : List (ℕ × WinCycle)) : ℕ := l.foldr (fun e n => max (e.1 + 1) n) 0

/-- No reservation is as many cycles ahead. -/
def farthest (H : ℕ) (s : WindowStructure) : ℕ := 2 * H + mapEnd s.ubWin

def scheduleInternal (H WSZ : ℕ) (touchOccupancy recordPort : Bool) (portMask : BitVec 8)
    (schedCycle : ℕ) (s : WindowStructure) : Option (WindowStructure × ℕ) :=
  (if touchOccupancy then drain H WSZ (s.farthest H) s else some s).bind fun s =>
    (s.place H touchOccupancy portMask schedCycle).map fun (s, schedCycle, availMask) =>
      ({ s with
        lastPort := if recordPort then firstAvail availMask else s.lastPort
        occupancy := if touchOccupancy then s.occupancy + 1 else s.occupancy }, schedCycle)

/-- The loop over the extra slots. -/
def scheduleSlots (H WSZ : ℕ) (portMask : BitVec 8) : ℕ → ℕ → WindowStructure →
    Option WindowStructure
  | 0, _, s => some s
  | n + 1, extraSlotCycle, s =>
    (s.scheduleInternal H WSZ false false portMask extraSlotCycle).bind fun (s, extraSlotCycle) =>
      scheduleSlots H WSZ portMask n (extraSlotCycle + 1) s

/-- `schedule`, with the `schedCycle` after it. -/
def schedule (H WSZ : ℕ) (schedCycle : ℕ) (portMask : BitVec 8) (extraSlots : ℕ)
    (s : WindowStructure) : Option (WindowStructure × ℕ) :=
  (s.scheduleInternal H WSZ true (extraSlots ≠ 0) portMask schedCycle).bind fun (s, schedCycle) =>
    (scheduleSlots H WSZ (1#8 <<< s.lastPort) extraSlots (schedCycle + 1) s).bind fun s =>
      if s.occupancy ≤ WSZ then some (s, schedCycle) else none

/-- The loop of `poisonRange`, for as many rounds as are given. -/
def poison (H WSZ : ℕ) (targetCycle : ℕ) (portMask : BitVec 8) : ℕ → ℕ → WindowStructure →
    Option WindowStructure
  | n, poisonCycle, s =>
    if poisonCycle < targetCycle then
      match n with
      | 0 => none
      | n + 1 =>
        (s.scheduleInternal H WSZ false false portMask poisonCycle).bind fun (s, poisonCycle) =>
          poison H WSZ targetCycle portMask n poisonCycle s
    else some s

/-- Each round but the first one goes on by a cycle. -/
def poisonRange (H WSZ : ℕ) (targetCycle : ℕ) (portMask : BitVec 8) (s : WindowStructure) :
    Option WindowStructure :=
  poison H WSZ targetCycle portMask (targetCycle - s.curCycle + 1) s.curCycle s

/-- `Drain IW`, for as many cycles as there are to go. -/
def drainTo (H targetCycle : ℕ) : ℕ → WindowStructure → Option WindowStructure
  | 0, s => some s
  | n + 1, s =>
    if s.occupancy ≠ 0 ∧ s.curCycle < targetCycle then
      (s.advancePos H).bind (drainTo H targetCycle n)
    else some s

def longAdvance (H : ℕ) (targetCycle : ℕ) (s : WindowStructure) : Option WindowStructure :=
  if s.curCycle ≤ targetCycle then
    (drainTo H targetCycle (targetCycle - s.curCycle) s).bind fun s =>
      if s.occupancy ≠ 0 then if s.curCycle = targetCycle then some s else none
      else if s.curCycle ≤ targetCycle then some { s with curCycle := targetCycle } else none
  else none

def step (H WSZ : ℕ) : WindowOp → WindowStructure → Option WindowStructure
  | .schedule schedCycle portMask extraSlots, s =>
    (s.schedule H WSZ schedCycle portMask extraSlots).map Prod.fst
  | .poisonRange targetCycle portMask, s => s.poisonRange H WSZ targetCycle portMask
  | .advancePos, s => s.advancePos H
  | .longAdvance targetCycle, s => s.longAdvance H targetCycle

/-- The `schedCycle` that `schedule` hands back. -/
def scheduled (H WSZ : ℕ) : WindowOp → WindowStructure → List ℕ
  | .schedule schedCycle portMask extraSlots, s =>
    ((s.schedule H WSZ schedCycle portMask extraSlots).map Prod.snd).toList
  | _, _ => []

end WindowStructure

end Doppelganger.Core
