import Doppelganger.Lib.Run
import Doppelganger.Mesi.Hierarchy
import Mathlib.Algebra.Group.Nat.Defs
import Mathlib.Data.List.Basic
import Mathlib.Logic.Function.Basic
import Mathlib.Tactic.Common

/-! The timing record that `TimingCache::access` builds.  Whether an access hit or missed is told
from the cycle at which the line is there, so each path through the coherence controllers is
followed here with the cycles that it adds.  What parents and children answer is given.  The
assertions of the controllers are those of `Doppelganger.Mesi`; here only those on the record are
checked.  Cycles are not bounded; a latency between two caches has 32 bits. -/

namespace Doppelganger.Timing

open Function Lib MESIState
open Mesi (Flags isExclusive)

/-- The cycles of a `TimingRecord`. -/
structure Record where
  reqCycle : Nat
  respCycle : Nat
deriving DecidableEq, Repr

/-- The answer of a parent to a request at `cycle`, with the record that it leaves and whether it
gives exclusive rights. -/
structure Reply (cycle : Nat) where
  respCycle : Nat
  record : Option Record
  exclusive : Bool
  cycle_le : cycle ≤ respCycle
  cycle_le_reqCycle : ∀ r ∈ record, cycle ≤ r.reqCycle

/-- A child: when it answers an invalidation that is sent at a cycle, and whether its line is dirty.
-/
structure Child where
  invalidate : Nat → Nat
  dirty : Bool

/-- What the caches around answer during an access.  A parent is asked once for an eviction and once
for the line.  The record of a writeback ends by its answer; a cache that leaves only the record of
its own eviction on a GET gives one that may end later. -/
structure Around where
  parentRTT : Nat
  evict : AccessType → (cycle : Nat) → Reply cycle
  get : AccessType → (cycle : Nat) → Reply cycle
  children : List Child
  evict_le : ∀ type cycle, ∀ r ∈ (evict type cycle).record,
    r.respCycle ≤ (evict type cycle).respCycle

/-- `Entry` of `MESITopCC`.  `numSharers` is the number of bits that are set, as in
`Mesi.Entry.Counted`. -/
structure Sharers where
  bits : List Bool
  exclusive : Bool
deriving DecidableEq, Repr

namespace Sharers

variable (e : Sharers)

def numSharers : Nat := e.bits.count true

def isEmpty : Bool := e.numSharers == 0

def isExclusive : Bool := e.numSharers == 1 && e.exclusive

def clear : Sharers := ⟨e.bits.map fun _ => false, false⟩

/-- The children with a sharer bit. -/
def sent (children : List Child) : List Child :=
  (List.zip e.bits children).filterMap fun (bit, child) => if bit then some child else none

end Sharers

/-- A line in a cache. -/
structure Line where
  state : MESIState
  entry : Sharers
deriving DecidableEq, Repr

/-- `MemReq`. -/
structure MemReq where
  type : AccessType
  childId : Nat
  cycle : Nat
  isPrefetch : Bool
  flags : Flags
deriving DecidableEq, Repr

/-- The parameters of a `TimingCache`. -/
structure CacheConfig where
  accLat : Nat
  nonInclusiveHack : Bool
deriving DecidableEq, Repr

/-! ### The controllers, for the cycles that they add -/

section

variable (k : CacheConfig) (a : Around)

/-- `MESITopCC::sendInvalidates`: the last answer, the entry after it and `*reqWriteback`. -/
def sendInvalidates (type : InvType) (e : Sharers) (cycle : Nat) : Nat × Sharers × Bool :=
  if type = .INVX ∧ e.isExclusive = false then (cycle, e, false)
  else if e.isEmpty then (cycle, e, false)
  else
    -- All invalidations are sent in parallel.
    ((e.sent a.children).foldl (fun maxCycle c => max (c.invalidate cycle) maxCycle) cycle,
      if type = .INV then { e with bits := e.bits.map fun _ => false }
      else { e with exclusive := false },
      (e.sent a.children).any Child.dirty)

/-- `MESITopCC::processEviction`. -/
def tccProcessEviction (e : Sharers) (cycle : Nat) : Nat × Sharers × Bool :=
  if k.nonInclusiveHack then (cycle, e.clear, false) else sendInvalidates a .INV e cycle

/-- `MESIBottomCC::processEviction`. -/
def bccProcessEviction (state : MESIState) (lowerLevelWriteback : Bool) (cycle : Nat) :
    Nat × Option Record :=
  match if lowerLevelWriteback then M else state with
  | I => (cycle, none)
  | S | E => ((a.evict .PUTS cycle).respCycle, (a.evict .PUTS cycle).record)
  | M => ((a.evict .PUTX cycle).respCycle, (a.evict .PUTX cycle).record)

/-- `MESICC::processEviction`: when it is done, the record that it leaves, and the line after it. -/
def processEviction (victim : Line) (cycle : Nat) : Nat × Option Record × Line :=
  let (evCycle, entry, lowerLevelWriteback) := tccProcessEviction k a victim.entry cycle
  let (evCycle, record) := bccProcessEviction a victim.state lowerLevelWriteback evCycle
  (evCycle, record, ⟨I, entry⟩)

/-- The request goes to the parent. -/
def goesUp (type : AccessType) (state : MESIState) : Prop :=
  type = .GETS ∧ state = I ∨ type = .GETX ∧ (state = I ∨ state = S)

instance (type : AccessType) (state : MESIState) : Decidable (goesUp type state) :=
  inferInstanceAs (Decidable (_ ∨ _))

/-- `nextLevelLat + netLat`, of type `uint32_t`. -/
def upLat (type : AccessType) (cycle : Nat) : Nat :=
  ((a.get type cycle).respCycle - cycle + a.parentRTT) % 2 ^ 32

/-- `MESIBottomCC::processAccess`: when the line is there, the record and the new state. -/
def bccProcessAccess (type : AccessType) (state : MESIState) (cycle : Nat) :
    Nat × Option Record × MESIState :=
  if goesUp type state then
    (cycle + upLat a type cycle, (a.get type cycle).record,
      if type = .GETX then M else if (a.get type cycle).exclusive then E else S)
  else (cycle, none, if (type = .PUTX ∨ type = .GETX) ∧ state = E then M else state)

/-- `MESITopCC::processAccess`: when it is done, the entry and `*inducedWriteback`. -/
def tccProcessAccess (req : MemReq) (e : Sharers) (haveExclusive : Bool) (cycle : Nat) :
    Nat × Sharers × Bool :=
  match req.type with
  | .PUTX =>
    if req.flags.putxKeepExcl then (cycle, e, false)
    else (cycle, { e with bits := e.bits.set req.childId false }, false)
  | .PUTS => (cycle, { e with bits := e.bits.set req.childId false }, false)
  | .GETS =>
    if e.isEmpty ∧ haveExclusive ∧ req.flags.noExcl = false then
      (cycle, ⟨e.bits.set req.childId true, true⟩, false)
    else
      -- The exclusive sharer is downgraded.
      let (respCycle, e, wb) :=
        if e.isExclusive then sendInvalidates a .INVX e cycle else (cycle, e, false)
      (respCycle, ⟨e.bits.set req.childId true, false⟩, wb)
  | .GETX =>
    -- On an upgrade miss the child is taken out of the sharers first.
    let (respCycle, e, wb) :=
      sendInvalidates a .INV { e with bits := e.bits.set req.childId false } cycle
    (respCycle, ⟨e.bits.set req.childId true, true⟩, wb)

/-- `MESICC::processAccess`: the response cycle, `getDoneCycle`, the record and the line. -/
def processAccess (req : MemReq) (line : Line) (cycle : Nat) :
    Nat × Nat × Option Record × Line :=
  if (req.type = .PUTS ∨ req.type = .PUTX) ∧ line.state = I then
    -- A non-inclusive writeback does not set `getDoneCycle`.
    ((a.get req.type cycle).respCycle, cycle, (a.get req.type cycle).record, line)
  else
    let (getDoneCycle, record, state) := bccProcessAccess a req.type line.state cycle
    if req.isPrefetch then (getDoneCycle, getDoneCycle, record, ⟨state, line.entry⟩)
    else
      let (respCycle, entry, inducedWriteback) :=
        tccProcessAccess a req line.entry (isExclusive state) getDoneCycle
      (respCycle, getDoneCycle, record,
        ⟨if inducedWriteback ∧ state = E then M else state, entry⟩)

/-! ### The record -/

/-- The assertions of `connect`. -/
def connects (r : Option Record) (startCycle endCycle : Nat) : Prop :=
  startCycle ≤ endCycle ∧ ∀ rec ∈ r, startCycle ≤ rec.reqCycle ∧ rec.respCycle ≤ endCycle

instance (r : Option Record) (startCycle endCycle : Nat) :
    Decidable (connects r startCycle endCycle) :=
  inferInstanceAs (Decidable (_ ∧ _))

/-- The record-building part of `TimingCache::access`, `none` when one of its assertions fails. -/
def buildRecord (reqCycle evDoneCycle getDoneCycle respCycle : Nat)
    (writebackRecord accessRecord : Option Record) : Option Record :=
  if getDoneCycle - reqCycle = k.accLat then
    if writebackRecord = none ∧ accessRecord = none then some ⟨reqCycle, respCycle⟩ else none
  else if getDoneCycle = respCycle ∧
      connects accessRecord (reqCycle + k.accLat) getDoneCycle ∧
      (evDoneCycle ≠ 0 → connects writebackRecord (reqCycle + k.accLat) evDoneCycle) then
    some ⟨reqCycle, respCycle⟩
  else none

/-- `TimingCache::access` on the line that the lookup found, or on the one that the array picked for
replacement: the record, and the line after the access. -/
def access (req : MemReq) (found : Bool) (line : Line) : Option (Record × Line) :=
  let respCycle := req.cycle + k.accLat
  let (evDoneCycle, writebackRecord, line) :=
    if found then (0, none, line) else processEviction k a line respCycle
  let (respCycle, getDoneCycle, accessRecord, line) := processAccess a req line respCycle
  (buildRecord k req.cycle evDoneCycle getDoneCycle respCycle writebackRecord accessRecord).map
    fun record => (record, line)

/-- `MESICC::processInv`, for the line. -/
def processInv (type : InvType) (line : Line) (cycle : Nat) : Line :=
  match type with
  | .FWD => line
  | .INVX => ⟨S, (sendInvalidates a .INVX line.entry cycle).2.1⟩
  | .INV => ⟨I, (sendInvalidates a .INV line.entry cycle).2.1⟩

end

/-- An access that `CheckForMESIRace` does not skip, or an invalidation of the parent.  Only a GET
takes a line for itself (`shouldAllocate`). -/
inductive Op
  | access (a : Around) (req : MemReq) (lineId : Nat) (found : Bool)
      (allocates : found = false → req.type = .GETS ∨ req.type = .GETX)
  | inv (a : Around) (type : InvType) (lineId : Nat) (cycle : Nat)

/-- The lines of a cache after an operation. -/
def step (k : CacheConfig) : Op → (Nat → Line) → Option (Nat → Line)
  | .access a req lineId found _, lines =>
    (access k a req found (lines lineId)).map fun (_, line) => update lines lineId line
  | .inv a type lineId cycle, lines =>
    some (update lines lineId (processInv a type (lines lineId) cycle))

/-! ### The latency of invalidations -/

section

variable {α : Type} {f : α → Nat} {x : Nat}

theorem le_foldl_max (f : α → Nat) (x : Nat) (l : List α) :
    x ≤ l.foldl (fun m c => max (f c) m) x := by
  induction l generalizing x with
  | nil => exact le_rfl
  | cons c l ih => exact le_trans (le_max_right (f c) x) (ih _)

theorem foldl_max_eq_iff {l : List α} :
    l.foldl (fun m c => max (f c) m) x = x ↔ ∀ c ∈ l, f c ≤ x := by
  induction l generalizing x with
  | nil => simp
  | cons c l ih =>
    rw [List.foldl_cons, List.forall_mem_cons]
    constructor
    case mp =>
      intro h
      have hc : max (f c) x ≤ x := le_trans (le_foldl_max f _ l) (le_of_eq h)
      have hfc : f c ≤ x := le_trans (le_max_left _ _) hc
      rw [max_eq_right hfc] at h
      exact ⟨hfc, ih.mp h⟩
    case mpr =>
      rintro ⟨hfc, hl⟩
      rw [max_eq_right hfc]
      exact ih.mpr hl

end

section

variable {k : CacheConfig} {a : Around} {e : Sharers} {req : MemReq} {line : Line} {cycle : Nat}
  {children : List Child} {child : Child} {found : Bool}

theorem Sharers.mem_sent :
    child ∈ e.sent children ↔ ∃ c : Nat, e.bits[c]? = some true ∧ children[c]? = some child := by
  rw [Sharers.sent, List.mem_filterMap]
  constructor
  case mp =>
    rintro ⟨⟨bit, child'⟩, hmem, h⟩
    obtain ⟨c, hc⟩ := List.mem_iff_getElem?.mp hmem
    obtain ⟨hbit, hchild⟩ := List.getElem?_zip_eq_some.mp hc
    cases bit with
    | false => exact absurd h (by simp)
    | true =>
      obtain rfl : child' = child := by simpa using h
      exact ⟨c, hbit, hchild⟩
  case mpr =>
    rintro ⟨c, hbit, hchild⟩
    have hmem : (true, child) ∈ List.zip e.bits children :=
      List.mem_iff_getElem?.mpr ⟨c, List.getElem?_zip_eq_some.mpr ⟨hbit, hchild⟩⟩
    exact ⟨(true, child), hmem, rfl⟩

theorem Sharers.isEmpty_iff : e.isEmpty = true ↔ ∀ c : Nat, e.bits[c]? ≠ some true := by
  rw [Sharers.isEmpty, beq_iff_eq, Sharers.numSharers, List.count_eq_zero, List.mem_iff_getElem?]
  exact not_exists

theorem Sharers.isExclusive_not_empty (h : e.isExclusive = true) : e.isEmpty = false := by
  have h1 : e.numSharers = 1 := by simpa using (Bool.and_eq_true_iff.mp h).1
  simp [Sharers.isEmpty, h1]

theorem le_sendInvalidates (a : Around) (type : InvType) (e : Sharers) (cycle : Nat) :
    cycle ≤ (sendInvalidates a type e cycle).1 := by
  unfold sendInvalidates
  split
  case isTrue => exact le_rfl
  case isFalse =>
    split
    case isTrue => exact le_rfl
    case isFalse => exact le_foldl_max _ _ _

/-- Invalidations take no time if and only if every child that is sent one answers by then. -/
theorem sendInvalidates_eq_iff {type : InvType} (h : type = .INVX → e.isExclusive = true) :
    (sendInvalidates a type e cycle).1 = cycle ↔
      ∀ (c : Nat) child, e.bits[c]? = some true → a.children[c]? = some child →
        child.invalidate cycle ≤ cycle := by
  have hx : ¬ (type = .INVX ∧ e.isExclusive = false) := by
    rintro ⟨ht, he⟩
    rw [h ht] at he
    cases he
  rw [sendInvalidates, if_neg hx]
  split
  case isTrue he =>
    exact iff_of_true rfl fun c _ hc => absurd hc (Sharers.isEmpty_iff.mp he c)
  case isFalse =>
    rw [foldl_max_eq_iff]
    constructor
    case mp => exact fun hs c child hc hchild => hs child (Sharers.mem_sent.mpr ⟨c, hc, hchild⟩)
    case mpr =>
      intro hs child hmem
      obtain ⟨c, hc, hchild⟩ := Sharers.mem_sent.mp hmem
      exact hs c child hc hchild

/-- A GET makes the directory send an invalidation to child `c`. -/
def Invalidates (req : MemReq) (e : Sharers) (c : Nat) : Prop :=
  e.bits[c]? = some true ∧
    (req.type = .GETX ∧ c ≠ req.childId ∨ req.type = .GETS ∧ e.isExclusive = true)

/-- The invalidations for a GET at `cycle` are answered at once. -/
def Quick (a : Around) (req : MemReq) (e : Sharers) (cycle : Nat) : Prop :=
  ∀ c child, Invalidates req e c → a.children[c]? = some child → child.invalidate cycle ≤ cycle

theorem tccProcessAccess_eq_iff (haveExclusive : Bool)
    (ht : req.type = .GETS ∨ req.type = .GETX) :
    (tccProcessAccess a req e haveExclusive cycle).1 = cycle ↔ Quick a req e cycle := by
  rcases ht with ht | ht
  case inl =>
    have hinv (c : Nat) :
        Invalidates req e c ↔ e.bits[c]? = some true ∧ e.isExclusive = true := by
      simp [Invalidates, ht]
    rw [tccProcessAccess, ht]
    dsimp only
    by_cases hx : e.isExclusive = true
    case pos =>
      rw [if_neg (by simp [Sharers.isExclusive_not_empty hx]), if_pos hx]
      refine (sendInvalidates_eq_iff fun _ => hx).trans ?_
      exact forall₂_congr fun c child => by rw [hinv, and_iff_left hx]
    case neg =>
      have hq : Quick a req e cycle := fun c child hc => absurd ((hinv c).mp hc).2 hx
      refine iff_of_true ?_ hq
      split
      case isTrue => rfl
      case isFalse => rfl
  case inr =>
    have hinv (c : Nat) :
        Invalidates req e c ↔ (e.bits.set req.childId false)[c]? = some true := by
      rw [Invalidates, List.getElem?_set]
      by_cases hc : req.childId = c
      case pos => simp [ht, hc]
      case neg => simp [ht, hc, Ne.symm hc]
    rw [tccProcessAccess, ht]
    refine (sendInvalidates_eq_iff fun h => by cases h).trans ?_
    exact forall₂_congr fun c child => by rw [hinv]

/-! ### An access -/

variable {reqCycle evDoneCycle getDoneCycle respCycle : Nat} {wb acc : Option Record}

theorem not_up_of_put {state : MESIState} (hp : req.type = .PUTS ∨ req.type = .PUTX) :
    ¬ goesUp req.type state := by
  rcases hp with h | h <;> simp [goesUp, h]

theorem get_of_up {state : MESIState} (h : goesUp req.type state) :
    req.type = .GETS ∨ req.type = .GETX :=
  h.imp And.left And.left

/-- A line that the parent is asked for: it is there after the parent's latency, and the access is
over by then unless children answer late. -/
theorem processAccess_up (a : Around) (cycle : Nat) (hup : goesUp req.type line.state) :
    (processAccess a req line cycle).2.1 = cycle + upLat a req.type cycle ∧
    (processAccess a req line cycle).2.2.1 = (a.get req.type cycle).record ∧
    ((cycle + upLat a req.type cycle = (processAccess a req line cycle).1) ↔
      (req.isPrefetch = false →
        Quick a req line.entry (cycle + upLat a req.type cycle))) := by
  have hput : ¬ ((req.type = .PUTS ∨ req.type = .PUTX) ∧ line.state = I) :=
    fun h => not_up_of_put h.1 hup
  rw [processAccess, if_neg hput, bccProcessAccess, if_pos hup]
  dsimp only
  by_cases hp : req.isPrefetch = true
  case pos =>
    rw [if_pos hp]
    exact ⟨rfl, rfl, iff_of_true rfl fun h => by rw [hp] at h; cases h⟩
  case neg =>
    rw [if_neg hp]
    refine ⟨rfl, rfl, ?_⟩
    rw [eq_comm, tccProcessAccess_eq_iff _ (get_of_up hup)]
    exact ⟨fun h _ => h, fun h => h (by simpa using hp)⟩

/-- A line that the cache has: it is there at once, and only a non-inclusive writeback leaves a
record. -/
theorem processAccess_here (a : Around) (cycle : Nat) (hup : ¬ goesUp req.type line.state) :
    (processAccess a req line cycle).2.1 = cycle ∧
    ((processAccess a req line cycle).2.2.1 = none ↔
      ((req.type = .PUTS ∨ req.type = .PUTX) ∧ line.state = I →
        (a.get req.type cycle).record = none)) := by
  rw [processAccess]
  split
  case isTrue h => exact ⟨rfl, ⟨fun hn _ => hn, fun hn => hn h⟩⟩
  case isFalse h =>
    rw [bccProcessAccess, if_neg hup]
    dsimp only
    split
    case isTrue => exact ⟨rfl, iff_of_true rfl fun h' => absurd h' h⟩
    case isFalse => exact ⟨rfl, iff_of_true rfl fun h' => absurd h' h⟩

theorem buildRecord_hit :
    (buildRecord k reqCycle evDoneCycle (reqCycle + k.accLat) respCycle wb acc).isSome = true ↔
      wb = none ∧ acc = none := by
  rw [buildRecord, if_pos (Nat.add_sub_cancel_left ..)]
  split
  case isTrue h => exact iff_of_true rfl h
  case isFalse h => exact iff_of_false (by simp) h

theorem buildRecord_miss (h : reqCycle + k.accLat < getDoneCycle) :
    (buildRecord k reqCycle evDoneCycle getDoneCycle respCycle wb acc).isSome = true ↔
      getDoneCycle = respCycle ∧ connects acc (reqCycle + k.accLat) getDoneCycle ∧
        (evDoneCycle ≠ 0 → connects wb (reqCycle + k.accLat) evDoneCycle) := by
  rw [buildRecord, if_neg (by omega)]
  split
  case isTrue h => exact iff_of_true rfl h
  case isFalse h => exact iff_of_false (by simp) h

theorem bccProcessEviction_connects (state : MESIState) (b : Bool) {start : Nat}
    (h : start ≤ cycle) :
    connects (bccProcessEviction a state b cycle).2 start (bccProcessEviction a state b cycle).1 :=
      by
  have hreply (type : AccessType) :
      connects (a.evict type cycle).record start (a.evict type cycle).respCycle :=
    ⟨le_trans h (a.evict type cycle).cycle_le, fun r hr =>
      ⟨le_trans h ((a.evict type cycle).cycle_le_reqCycle r hr), a.evict_le type cycle r hr⟩⟩
  unfold bccProcessEviction
  split
  case h_1 => exact ⟨h, by rintro _ ⟨⟩⟩
  case h_2 => exact hreply .PUTS
  case h_3 => exact hreply .PUTS
  case h_4 => exact hreply .PUTX

theorem le_tccProcessEviction (k : CacheConfig) (a : Around) (e : Sharers) (cycle : Nat) :
    cycle ≤ (tccProcessEviction k a e cycle).1 := by
  unfold tccProcessEviction
  split
  case isTrue => exact le_rfl
  case isFalse => exact le_sendInvalidates a .INV e cycle

/-- What an eviction leaves can be connected. -/
theorem processEviction_connects (k : CacheConfig) (a : Around) (victim : Line) (cycle : Nat) :
    connects (processEviction k a victim cycle).2.1 cycle (processEviction k a victim cycle).1 :=
  bccProcessEviction_connects victim.state _ (le_tccProcessEviction k a victim.entry cycle)

/-- No child has a line that was evicted. -/
theorem processEviction_bits (victim : Line) (c : Nat) :
    (processEviction k a victim cycle).2.2.entry.bits[c]? ≠ some true := by
  have hclear (bits : List Bool) : (bits.map fun _ => false)[c]? ≠ some true := by
    rw [List.getElem?_map]
    cases bits[c]? <;> simp
  have hentry : (processEviction k a victim cycle).2.2.entry =
      (tccProcessEviction k a victim.entry cycle).2.1 := rfl
  rw [hentry, tccProcessEviction]
  split
  case isTrue => exact hclear _
  case isFalse =>
    rw [sendInvalidates, if_neg (by simp)]
    split
    case isTrue he => exact Sharers.isEmpty_iff.mp he c
    case isFalse => exact hclear _

/-- When the record of an access to `line` can be built, after an eviction that left `wb`. -/
def Builds (k : CacheConfig) (a : Around) (req : MemReq) (line : Line) (wb : Option Record) :
    Prop :=
  let start := req.cycle + k.accLat
  let getDone := start + upLat a req.type start
  if goesUp req.type line.state then
    if upLat a req.type start = 0 then (a.get req.type start).record = none ∧ wb = none
    else
      (req.isPrefetch = false → Quick a req line.entry getDone) ∧
        ∀ r ∈ (a.get req.type start).record, r.respCycle ≤ getDone
  else
    wb = none ∧
      ((req.type = .PUTS ∨ req.type = .PUTX) ∧ line.state = I →
        (a.get req.type start).record = none)

theorem buildRecord_iff
    (hwb : evDoneCycle ≠ 0 → connects wb (req.cycle + k.accLat) evDoneCycle) :
    (buildRecord k req.cycle evDoneCycle
      (processAccess a req line (req.cycle + k.accLat)).2.1
      (processAccess a req line (req.cycle + k.accLat)).1 wb
      (processAccess a req line (req.cycle + k.accLat)).2.2.1).isSome = true ↔
      Builds k a req line wb := by
  rw [Builds]
  split
  case isTrue hup =>
    obtain ⟨hget, hrec, hresp⟩ := processAccess_up a (req.cycle + k.accLat) hup
    rw [hget, hrec]
    split
    case isTrue h0 => rw [h0, Nat.add_zero, buildRecord_hit, and_comm]
    case isFalse h0 =>
      rw [buildRecord_miss (by omega), hresp]
      refine and_congr_right fun _ => ?_
      constructor
      case mp => exact fun h r hr => (h.1.2 r hr).2
      case mpr =>
        exact fun h => ⟨⟨Nat.le_add_right _ _, fun r hr =>
          ⟨(a.get req.type (req.cycle + k.accLat)).cycle_le_reqCycle r hr, h r hr⟩⟩, hwb⟩
  case isFalse hup =>
    obtain ⟨hget, hrec⟩ := processAccess_here a (req.cycle + k.accLat) hup
    rw [hget, buildRecord_hit, hrec]

/-- What each operation has to meet for its record: the condition `Builds`, on the line that was
found or, for a line that was not, on an invalid one that no child has. -/
def Fits (k : CacheConfig) : Op → (Nat → Line) → Prop
  | .access a req lineId true _, lines => Builds k a req (lines lineId) none
  | .access a req lineId false _, lines =>
    Builds k a req ⟨I, ⟨[], false⟩⟩
      (processEviction k a (lines lineId) (req.cycle + k.accLat)).2.1
  | .inv .., _ => True

theorem quick_of_no_bits (h : ∀ c : Nat, e.bits[c]? ≠ some true) : Quick a req e cycle :=
  fun c _ hc => absurd hc.1 (h c)

/-- Only its state and the children that have it matter of a line. -/
theorem builds_congr {line' : Line} (hs : line.state = line'.state)
    (h : ∀ c : Nat, line.entry.bits[c]? ≠ some true)
    (h' : ∀ c : Nat, line'.entry.bits[c]? ≠ some true) :
    Builds k a req line wb ↔ Builds k a req line' wb := by
  have hq (cycle : Nat) : Quick a req line.entry cycle ↔ Quick a req line'.entry cycle :=
    iff_of_true (quick_of_no_bits h) (quick_of_no_bits h')
  simp only [Builds, hs, hq]

theorem access_iff : (access k a req found line).isSome = true ↔
    if found then Builds k a req line none
    else Builds k a req ⟨I, ⟨[], false⟩⟩
      (processEviction k a line (req.cycle + k.accLat)).2.1 := by
  cases found with
  | true =>
    rw [access, Option.isSome_map]
    exact buildRecord_iff fun h => absurd rfl h
  | false =>
    rw [access, Option.isSome_map]
    refine (buildRecord_iff fun _ => processEviction_connects k a line _).trans ?_
    exact builds_congr rfl (processEviction_bits line) (by simp)

theorem step_isSome_iff (k : CacheConfig) (op : Op) (lines : Nat → Line) :
    (step k op lines).isSome = true ↔ Fits k op lines := by
  cases op with
  | access a req lineId found allocates =>
    rw [step, Option.isSome_map, access_iff]
    cases found with
    | true => exact Iff.rfl
    | false => exact Iff.rfl
  | inv a type lineId cycle => exact iff_of_true rfl trivial

/-- The record of every access of a sequence is built if and only if each of them fits.  A request
that goes to the parent fits when every other child that has the line answers its invalidation at
once and the parent's record ends by the parent's answer, or when the answer takes no time and no
record is left; any other request fits when it leaves no record. -/
theorem records_built_iff (k : CacheConfig) (ops : List Op) (lines : Nat → Line) :
    (run (step k) ops lines).isSome = true ↔ Along (step k) (Fits k) ops lines :=
  run_isSome_iff (step_isSome_iff k) ops lines

/-- Two children share a line that the parent gave for reading; one of them writes it.  The parent
answers after 100 cycles; the other child takes 4 cycles for its invalidation. -/
def upgrade : List Op :=
  let reply (cycle : Nat) : Reply cycle :=
    ⟨cycle + 100, some ⟨cycle, cycle + 100⟩, false, Nat.le_add_right cycle 100, by simp⟩
  let a : Around :=
    ⟨0, fun _ cycle => ⟨cycle, none, false, le_rfl, by simp⟩, fun _ => reply,
      [⟨fun cycle => cycle + 4, false⟩, ⟨fun cycle => cycle + 4, false⟩], by simp⟩
  [.access a ⟨.GETS, 0, 1000, false, ⟨true, false⟩⟩ 0 false (fun _ => .inl rfl),
    .access a ⟨.GETS, 1, 2000, false, ⟨false, false⟩⟩ 0 true (fun _ => .inl rfl),
    .access a ⟨.GETX, 1, 3000, false, ⟨false, false⟩⟩ 0 true (fun _ => .inr rfl)]

/-- The first two accesses leave their records; for the third `getDoneCycle` is not the response
cycle. -/
theorem upgrade_fails :
    (run (step ⟨10, false⟩) (upgrade.take 2) fun _ => ⟨I, ⟨[false, false], false⟩⟩).isSome = true ∧
    run (step ⟨10, false⟩) upgrade (fun _ => ⟨I, ⟨[false, false], false⟩⟩) = none := by
  constructor
  case left => decide
  case right => exact Option.not_isSome_iff_eq_none.mp (by decide)

end

end Doppelganger.Timing
