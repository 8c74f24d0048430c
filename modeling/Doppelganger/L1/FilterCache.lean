import Doppelganger.Lib.Run
import Doppelganger.Llc.Arrays
import Doppelganger.Mesi.Invalidate
import Mathlib.Algebra.Group.Nat.Defs

/-! The `FilterCache` of `filter_cache.h` over its set-associative array, the threads that the
scheduler puts on its core, and the invalidations that other caches send.  `replace` gives up its
lock while the hierarchy works on the access, so that invalidations come before the victim is
evicted and before the line is there.  An operation is `none` when an assertion fails. -/

namespace Doppelganger.L1

open Function

structure FilterEntry where
  rdAddr : Address
  wrAddr : Address
deriving DecidableEq, Repr

/-- `FilterEntry::clear` -/
def FilterEntry.clear : FilterEntry := ⟨0, 0⟩

/-- `build` makes only filter caches whose array has the same sets and no hash.  A line has more
than one byte, and the sizes are 32-bit words. -/
structure Config where
  lineBits : Fin 32
  numSets : Nat
  assoc : Nat
  lineBits_pos : 0 < lineBits.val
  pow2 : isPow2 numSets = true
  numSets_lt : numSets < 2 ^ 32

/-- An access of `replace`: `lineId` is where the line is, or the victim's while that is evicted. -/
structure Replace where
  vLineAddr : Address
  lineAddr : Address
  isLoad : Bool
  lineId : Nat
  evicting : Bool
deriving DecidableEq, Repr

def Replace.type (r : Replace) : AccessType := if r.isLoad then .GETS else .GETX

/-- The filter, the array and the states of the L1, and the process and the access of the thread on
the core.  The ghost `filledBy` is the process for which `replace` filled an entry. -/
structure FilterCache where
  filterArray : Nat → FilterEntry
  array : Nat → Address
  state : Nat → MESIState
  proc : Option Nat
  replacing : Option Replace
  filledBy : Nat → Option Nat

inductive Op
  | load (vAddr : Address) (victim : Nat)
  | store (vAddr : Address) (victim : Nat)
  | evicted
  | granted (grant : MESIState)
  | invalidate (type : InvType) (lineAddr : Address) (proc : Nat)
  | deschedule
  | schedule (proc : Nat)
deriving DecidableEq, Repr

namespace Config

variable (cfg : Config)

def setMask : Address := cfg.numSets.toUInt64 - 1

/-- The index in the filter, and the set in the array. -/
def index (lineAddr : Address) : Nat := (lineAddr &&& cfg.setMask).toNat

def vLineAddr (vAddr : Address) : Address := vAddr >>> cfg.lineBits.val.toUInt64

/-- `procMask` of a process. -/
def procMask (procIdx : Nat) : Address := procIdx.toUInt64 <<< (64 - cfg.lineBits.val).toUInt64

def init : FilterCache := ⟨fun _ => .clear, fun _ => 0, fun _ => .I, none, none, fun _ => none⟩

/-- The line ids of the set of an address. -/
def lines (lineAddr : Address) : List Nat := List.range' (cfg.index lineAddr * cfg.assoc) cfg.assoc

/-- `SetAssocArray::lookup` -/
def lookup (lineAddr : Address) (array : Nat → Address) : Option Nat :=
  (cfg.lines lineAddr).find? fun id => array id == lineAddr

/-- The address with which the filter compares, `rdAddr` or `wrAddr`. -/
def filterAddr (isLoad : Bool) (vAddr : Address) (s : FilterCache) : Address :=
  let entry := s.filterArray (cfg.index (cfg.vLineAddr vAddr))
  if isLoad then entry.rdAddr else entry.wrAddr

/-- The fast path of `load` and `store`. -/
def Hits (isLoad : Bool) (vAddr : Address) (s : FilterCache) : Prop :=
  cfg.vLineAddr vAddr = cfg.filterAddr isLoad vAddr s

instance (isLoad : Bool) (vAddr : Address) (s : FilterCache) :
    Decidable (cfg.Hits isLoad vAddr s) := inferInstanceAs (Decidable (_ = _))

/-- `replace`, up to `processEviction` of the victim or to `processAccess`. -/
def replace (vLineAddr : Address) (isLoad : Bool) (procIdx victim : Nat) (s : FilterCache) :
    FilterCache :=
  let lineAddr := cfg.procMask procIdx ||| vLineAddr
  { s with replacing := some <| match cfg.lookup lineAddr s.array with
    | some lineId => ⟨vLineAddr, lineAddr, isLoad, lineId, false⟩
    | none => ⟨vLineAddr, lineAddr, isLoad, victim, true⟩ }

/-- `load` and `store` of the thread on the core. -/
def access (isLoad : Bool) (vAddr : Address) (victim : Nat) (s : FilterCache) :
    Option FilterCache :=
  s.proc.bind fun procIdx =>
    if s.replacing = none then
      if cfg.Hits isLoad vAddr s then some s
      else some (cfg.replace (cfg.vLineAddr vAddr) isLoad procIdx victim s)
    else none

/-- The victim is evicted, and `postinsert` puts the line in its place. -/
def evicted (s : FilterCache) : Option FilterCache :=
  s.replacing.bind fun r =>
    if r.evicting then
      some { s with
        array := update s.array r.lineId r.lineAddr
        state := update s.state r.lineId .I
        replacing := some { r with evicting := false } }
    else none

/-- `processAccess` has the line in the state `grant` when it asks the parent for it, and `replace`
fills the entry. -/
def granted (grant : MESIState) (s : FilterCache) : Option FilterCache :=
  s.replacing.bind fun r =>
    if r.evicting then none
    else (Mesi.bccProcessAccess r.type [] (.terminal (s.state r.lineId))
        fun node => some ([], node.setState grant)).map fun (_, node) =>
      { s with
        state := update s.state r.lineId node.state
        filterArray := update s.filterArray (cfg.index r.vLineAddr)
          ⟨r.vLineAddr, if r.isLoad then -1 else r.vLineAddr⟩
        replacing := none
        filledBy := update s.filledBy (cfg.index r.vLineAddr) s.proc }

/-- `invalidate`, run by a thread of the process `procIdx`. -/
def invalidate (type : InvType) (lineAddr : Address) (procIdx : Nat) (s : FilterCache) :
    Option FilterCache :=
  let idx := cfg.index lineAddr
  let s := if (s.filterArray idx).rdAddr ||| cfg.procMask procIdx = lineAddr then
      { s with
        filterArray := update s.filterArray idx ⟨-1, -1⟩
        filledBy := update s.filledBy idx none }
    else s
  (cfg.lookup lineAddr s.array).bind fun lineId =>
    (Mesi.bccProcessInval type (s.state lineId) false).map fun (state, _) =>
      { s with state := update s.state lineId state }

/-- `contextSwitch` of the core when its thread is descheduled. -/
def deschedule (s : FilterCache) : Option FilterCache :=
  if s.proc ≠ none ∧ s.replacing = none then
    some { s with filterArray := fun _ => .clear, proc := none, filledBy := fun _ => none }
  else none

/-- `contextSwitch` of the core with a thread of the process, which does nothing here. -/
def schedule (procIdx : Nat) (s : FilterCache) : Option FilterCache :=
  if s.proc = none then some { s with proc := some procIdx } else none

def step : Op → FilterCache → Option FilterCache
  | .load vAddr victim, s => cfg.access true vAddr victim s
  | .store vAddr victim, s => cfg.access false vAddr victim s
  | .evicted, s => evicted s
  | .granted grant, s => cfg.granted grant s
  | .invalidate type lineAddr procIdx, s => cfg.invalidate type lineAddr procIdx s
  | .deschedule, s => deschedule s
  | .schedule procIdx, s => schedule procIdx s

/-- What the scheduler, the replacement policy and the parents promise: a thread runs on the core
and waits for its accesses, the victim is in the set, a parent grants what it was asked for and
invalidates lines that the L1 has in a state for it. -/
def Allowed : Op → FilterCache → Prop
  | .load vAddr victim, s | .store vAddr victim, s => s.replacing = none ∧
      ∃ procIdx ∈ s.proc, victim ∈ cfg.lines (cfg.procMask procIdx ||| cfg.vLineAddr vAddr)
  | .evicted, s => ∃ r ∈ s.replacing, r.evicting = true
  | .granted grant, s => ∃ r ∈ s.replacing, r.evicting = false ∧
      if r.isLoad then grant = .S ∨ grant = .E else grant = .M
  | .invalidate type lineAddr _, s => ∃ lineId ∈ cfg.lookup lineAddr s.array,
      Mesi.accepts type (s.state lineId) = true
  | .deschedule, s => s.replacing = none ∧ s.proc ≠ none
  | .schedule _, s => s.proc = none

/-- No access of the line 0 meets an entry that `clear` left, and an invalidation that takes away
what the entry of its line allows comes from a process with the same mask. -/
def Sees : Op → FilterCache → Prop
  | .load vAddr _, s | .store vAddr _, s => cfg.vLineAddr vAddr = 0 →
      s.filledBy (cfg.index 0) = none → s.filterArray (cfg.index 0) ≠ .clear
  | .invalidate type lineAddr procIdx, s =>
      let idx := cfg.index lineAddr
      let entry := s.filterArray idx
      (∃ filler ∈ s.filledBy idx, cfg.procMask filler ||| entry.rdAddr = lineAddr) →
        (∀ r ∈ s.replacing, cfg.index r.vLineAddr ≠ idx) →
          type = .INV ∨ type = .INVX ∧ entry.wrAddr = entry.rdAddr →
            entry.rdAddr ||| cfg.procMask procIdx = lineAddr
  | _, _ => True

instance : ∀ (op : Op) (s : FilterCache), Decidable (cfg.Allowed op s)
  | .load .., _ | .store .., _ => inferInstanceAs (Decidable (_ ∧ ∃ procIdx ∈ _, _))
  | .evicted, _ => inferInstanceAs (Decidable (∃ r ∈ _, _))
  | .granted _, _ => inferInstanceAs (Decidable (∃ r ∈ _, _ ∧ ite _ _ _))
  | .invalidate .., _ => inferInstanceAs (Decidable (∃ lineId ∈ _, _))
  | .deschedule, _ => inferInstanceAs (Decidable (_ ∧ _))
  | .schedule _, _ => inferInstanceAs (Decidable (_ = _))

instance : ∀ (op : Op) (s : FilterCache), Decidable (cfg.Sees op s)
  | .load .., _ | .store .., _ => inferInstanceAs (Decidable (_ → _ → _))
  | .invalidate .., _ => inferInstanceAs (Decidable ((∃ filler ∈ _, _) → (∀ r ∈ _, _) → _ → _))
  | .evicted, _ | .granted _, _ | .deschedule, _ | .schedule _, _ => isTrue trivial

end Config

end Doppelganger.L1
