import Doppelganger.Lib.Run
import Doppelganger.Weave.SlabAlloc
import Doppelganger.Weave.TimingEvent

/-! The events in the slabs.  An event frees the blocks of its children and itself when it is done,
one call of `freeElem` after the other, and those of several events come in any order.  A
`CrossingEvent` has the event for its source domain in itself, and that one calls `freeElem` too. -/

namespace Doppelganger.Weave

open Function List Lib

/-- What is allocated: an event, or a block of children of an event. -/
inductive Name (ι : Type*)
  | event (e : ι)
  | block (e : ι) (n : Nat)
deriving DecidableEq, Repr

def Name.owner {ι : Type*} : Name ι → ι
  | .event e | .block e _ => e

/-- The `CrossingSrcEvent` of a `CrossingEvent`. -/
structure SrcEvent where
  addr : Nat
  state : EventState
  numParents : Nat

/-- The memory of an event: `children` has the addresses of the blocks, and `toFree` those that
`freeEvent` has not yet come to. -/
structure HeapEvent where
  state : EventState
  addr : Nat
  numChildren : Nat
  children : List Nat
  src : Option SrcEvent
  toFree : List Nat

/-- The ghosts are the slabs that `gm_memalign` gave, the objects that are live, and what the calls
of `freeElem` have freed, the latest first. -/
structure EventHeap (ι : Type*) where
  slabAlloc : SlabAlloc
  events : ι → Option HeapEvent
  known : List Nat
  live : List (Name ι × Obj)
  freed : List (Option (Name ι))

/-- `sizeof(TimingEventBlock)` -/
abbrev blockSize : Nat := 32

namespace EventHeap

variable {ι : Type*} [DecidableEq ι]

def init (fresh : Nat) : EventHeap ι := ⟨.init fresh, fun _ => none, [fresh], [], []⟩

def set (e : ι) (ev : HeapEvent) (h : EventHeap ι) : EventHeap ι :=
  { h with events := update h.events e (some ev) }

/-- `EventRecorder::alloc` -/
def alloc (name : Name ι) (fresh size : Nat) (h : EventHeap ι) : Option (Nat × EventHeap ι) :=
  (h.slabAlloc.alloc fresh size).map fun (ptr, a) =>
    (ptr, { h with
      slabAlloc := a
      known := h.known.insert a.curSlab
      live := (name, ⟨ptr, size⟩) :: h.live })

def freeElem (ptr : Nat) (h : EventHeap ι) : Option (EventHeap ι) :=
  (h.slabAlloc.freeElem ptr).map fun a =>
    match h.live.find? fun o => o.2.addr = ptr with
    | some o => { h with
        slabAlloc := a
        live := h.live.erase o
        freed := some o.1 :: h.freed }
    | none => { h with slabAlloc := a, freed := none :: h.freed }

/-- An event of `size` bytes.  A `CrossingEvent` has its source event at the offset `src`. -/
def new (e : ι) (fresh size : Nat) (src : Option Nat) (h : EventHeap ι) : Option (EventHeap ι) :=
  (h.alloc (.event e) fresh size).map fun (ptr, h) =>
    h.set e ⟨.NONE, ptr, 0, [], src.map fun offset => ⟨ptr + offset, .NONE, 1⟩, []⟩

/-- `addChild` of the parent: the second child and each further one after three needs a block. -/
def addChild (e : ι) (fresh : Nat) (h : EventHeap ι) : Option (EventHeap ι) :=
  (h.events e).bind fun ev =>
    if ev.state = .NONE ∨ ev.state = .QUEUED then
      if ev.numChildren = 1 ∨ 2 ≤ ev.numChildren ∧ ev.numChildren % blockEvents = 0 then
        (h.alloc (.block e ev.children.length) fresh blockSize).map fun (ptr, h) =>
          h.set e { ev with numChildren := ev.numChildren + 1, children := ptr :: ev.children }
      else some (h.set e { ev with numChildren := ev.numChildren + 1 })
    else none

/-- `queue`, `run`, `requeue`, `hold` and `release` take an event from one state to another. -/
def Moves : EventState → EventState → Bool
  | .NONE, .QUEUED | .NONE, .RUNNING | .QUEUED, .RUNNING | .RUNNING, .QUEUED | .HELD, .QUEUED
  | .RUNNING, .HELD | .HELD, .RUNNING => true
  | _, _ => false

def move (e : ι) (state : EventState) (h : EventHeap ι) : Option (EventHeap ι) :=
  (h.events e).bind fun ev =>
    if Moves ev.state state then some (h.set e { ev with state := state }) else none

/-- `done`, up to the calls of `freeElem` in `freeEvent`. -/
def done (e : ι) (h : EventHeap ι) : Option (EventHeap ι) :=
  (h.events e).bind fun ev =>
    if ev.state = .RUNNING then
      some (h.set e { ev with
        state := .DONE
        toFree := (if ev.numChildren > 1 then ev.children else []) ++ [ev.addr] })
    else none

/-- The next call of `freeElem` in `freeEvent`. -/
def freeNext (e : ι) (h : EventHeap ι) : Option (EventHeap ι) :=
  (h.events e).bind fun ev =>
    match ev.toFree with
    | [] => none
    | ptr :: toFree => (h.freeElem ptr).map (set e { ev with toFree := toFree })

/-- `CrossingSrcEvent::parentDone`, with `done` and `freeEvent` of the source event. -/
def srcDone (e : ι) (h : EventHeap ι) : Option (EventHeap ι) :=
  (h.events e).bind fun ev => ev.src.bind fun src =>
    if src.numParents = 1 ∧ src.state = .NONE then
      (h.freeElem src.addr).map
        (set e { ev with src := some { src with state := .DONE, numParents := 0 } })
    else none

end EventHeap

inductive HeapOp (ι : Type*)
  | new (e : ι) (fresh size : Nat) (src : Option Nat)
  | addChild (e : ι) (fresh : Nat)
  | move (e : ι) (state : EventState)
  | done (e : ι)
  | freeNext (e : ι)
  | srcDone (e : ι)

namespace EventHeap

variable {ι : Type*} [DecidableEq ι]

def step : HeapOp ι → EventHeap ι → Option (EventHeap ι)
  | .new e fresh size src, h => h.new e fresh size src
  | .addChild e fresh, h => h.addChild e fresh
  | .move e state, h => h.move e state
  | .done e, h => h.done e
  | .freeNext e, h => h.freeNext e
  | .srcDone e, h => h.srcDone e

/-- `gm_memalign` gives a new slab, events fit in an empty one, and what the code asserts of the
states holds.  A crossing is done only after its source event. -/
def Allowed : HeapOp ι → EventHeap ι → Prop
  | .new e fresh size src, h => fresh ∉ h.known ∧ h.events e = none ∧ (2 ≤ size ∧ size < bufSize) ∧
      ∀ offset ∈ src, offset < size
  | .addChild e fresh, h => fresh ∉ h.known ∧
      ∃ ev ∈ h.events e, ev.state = .NONE ∨ ev.state = .QUEUED
  | .move e state, h => ∃ ev ∈ h.events e, Moves ev.state state = true
  | .done e, h => ∃ ev ∈ h.events e, ev.state = .RUNNING ∧ ∀ src ∈ ev.src, src.state = .DONE
  | .freeNext e, h => ∃ ev ∈ h.events e, ev.state = .DONE ∧ ev.toFree ≠ []
  | .srcDone e, h => ∃ ev ∈ h.events e, ∃ src ∈ ev.src, src.numParents = 1 ∧ src.state = .NONE

/-- No source event of a crossing gets done. -/
def NoSrcDone : HeapOp ι → EventHeap ι → Prop
  | .srcDone _, _ => False
  | _, _ => True

instance : ∀ (op : HeapOp ι) (h : EventHeap ι), Decidable (Allowed op h)
  | .new .., _ => inferInstanceAs (Decidable (_ ∧ _ ∧ _ ∧ _))
  | .addChild .., _ => inferInstanceAs (Decidable (_ ∧ ∃ ev ∈ _, _))
  | .move .., _ | .done .., _ | .freeNext .., _ | .srcDone .., _ =>
    inferInstanceAs (Decidable (∃ ev ∈ _, _))

instance : ∀ (op : HeapOp ι) (h : EventHeap ι), Decidable (NoSrcDone op h)
  | .srcDone _, _ => isFalse id
  | .new .., _ | .addChild .., _ | .move .., _ | .done .., _ | .freeNext .., _ => isTrue trivial

end EventHeap

end Doppelganger.Weave
