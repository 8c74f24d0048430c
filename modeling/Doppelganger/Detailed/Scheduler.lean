import Doppelganger.Detailed.Channel

/-! `MemSchedulerDefault` of `detailed_mem.cpp`: the queues of reads and writes of a channel, and
the choice of the next request.  A function is `none` when an assertion fails or a null event is
read. -/

namespace Doppelganger.Detailed

open MemAccessType

/-- An event for the controller.  `id` tells events apart, and `cycle` is when its parents are
done. -/
structure MemAccessEvent where
  id : Nat
  type : MemAccessType
  addr : UInt64
  cycle : Nat
deriving DecidableEq, Repr

abbrev MemSchedQueueElem := Option MemAccessEvent × UInt64

structure MemSchedulerDefault where
  prioritizedAccessType : MemAccessType
  wrQueueSize : UInt32
  wrQueueHighWatermark : UInt32
  wrQueueLowWatermark : UInt32
  rdQueue : List MemSchedQueueElem
  wrQueue : List MemSchedQueueElem
  wrDoneQueue : List MemSchedQueueElem
deriving DecidableEq

namespace MemSchedulerDefault

def init (p : MemParam) : MemSchedulerDefault where
  prioritizedAccessType := READ
  wrQueueSize := p.schedulerQueueCount
  wrQueueHighWatermark := p.schedulerQueueCount * 2 / 3
  wrQueueLowWatermark := p.schedulerQueueCount * 1 / 3
  rdQueue := []
  wrQueue := []
  wrDoneQueue := []

variable (p : MemParam) (chnl : MemChannel) (s : MemSchedulerDefault)

/-! ### `CheckSetEvent` -/

def hasAddr (queue : List MemSchedQueueElem) (addr : UInt64) : Bool := queue.any (·.2 == addr)

/-- `erase` of the first element with this address. -/
def eraseAddr (queue : List MemSchedQueueElem) (addr : UInt64) : List MemSchedQueueElem :=
  queue.eraseP (·.2 == addr)

/-- The elements of `wrQueue` and `wrDoneQueue` together. -/
def wrCount : Nat := s.wrQueue.length + s.wrDoneQueue.length

/-- The overflow case: the oldest write that is done is forgotten, if there is one. -/
def checkOverflow : MemSchedulerDefault :=
  if s.wrCount = s.wrQueueSize.toNat then { s with wrDoneQueue := s.wrDoneQueue.tail } else s

/-- Whether the request hits in one of the queues of writes, and the queues after it. -/
def checkSetEvent (ev : MemAccessEvent) : MemSchedulerDefault × Bool :=
  if hasAddr s.wrQueue ev.addr then
    (match ev.type with
      | READ => s
      | WRITE => { s with wrQueue := eraseAddr s.wrQueue ev.addr ++ [(none, ev.addr)] }, true)
  else if hasAddr s.wrDoneQueue ev.addr then
    (match ev.type with
      | READ => { s with wrDoneQueue := eraseAddr s.wrDoneQueue ev.addr ++ [(none, ev.addr)] }
      | WRITE => { s with
          wrDoneQueue := eraseAddr s.wrDoneQueue ev.addr
          wrQueue := s.wrQueue ++ [(none, ev.addr)] }, true)
  else
    (match ev.type with
      | READ => { s with rdQueue := s.rdQueue ++ [(some ev, ev.addr)] }
      | WRITE => checkOverflow { s with wrQueue := s.wrQueue ++ [(none, ev.addr)] }, false)

/-! ### `GetEvent` -/

def isRowBufferHit (addr : UInt64) : Option Bool :=
  (p.addressMap chnl.myId addr).map fun place =>
    (chnl.ranks place.rank.toNat).isRowBufferHit place.row place.bank.toNat

/-- The place of the first request of a queue that hits an open row. -/
def findRowBufferHit : List MemSchedQueueElem → Nat → Option (Option Nat)
  | [], _ => some none
  | (_, addr) :: queue, idx => (isRowBufferHit p chnl addr).bind fun hit =>
      if hit then some (some idx) else findRowBufferHit queue (idx + 1)

/-- The place of the request to serve next, if the queue has any. -/
def findBestRequest (queue : List MemSchedQueueElem) : Option (Option Nat) :=
  (findRowBufferHit p chnl queue 0).map fun idx =>
    if queue.isEmpty then none else some (idx.getD 0)

/-- The priority, by the length of the queue of writes. -/
def checkPriority : MemSchedulerDefault :=
  if s.wrQueueHighWatermark.toNat ≤ s.wrQueue.length then { s with prioritizedAccessType := WRITE }
  else if s.wrQueue.length ≤ s.wrQueueLowWatermark.toNat then
    { s with prioritizedAccessType := READ }
  else s

/-- What `GetEvent` returns: the event of a read, the address and the type. -/
abbrev Chosen := Option MemAccessEvent × UInt64 × MemAccessType

def getRead : Option (MemSchedulerDefault × Option Chosen) :=
  (findBestRequest p chnl s.rdQueue).bind fun
    | none => some (s, none)
    | some idx => (s.rdQueue[idx]?.bind Prod.fst).map fun ev =>
        ({ s with rdQueue := s.rdQueue.eraseIdx idx }, some (some ev, ev.addr, ev.type))

def getWrite : Option (MemSchedulerDefault × Option Chosen) :=
  (findBestRequest p chnl s.wrQueue).bind fun
    | none => some (s, none)
    | some idx => s.wrQueue[idx]?.map fun (_, addr) =>
        ({ s with
            wrQueue := s.wrQueue.eraseIdx idx
            wrDoneQueue := s.wrDoneQueue ++ [(none, addr)] }, some (none, addr, WRITE))

def getEvent : Option (MemSchedulerDefault × Option Chosen) :=
  let s := s.checkPriority
  match s.prioritizedAccessType with
  | READ => (s.getRead p chnl).bind fun
      | (s, some chosen) => some (s, some chosen)
      | (s, none) => s.getWrite p chnl
  | WRITE => s.getWrite p chnl

end MemSchedulerDefault

end Doppelganger.Detailed
