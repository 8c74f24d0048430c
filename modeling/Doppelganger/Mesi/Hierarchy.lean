import Doppelganger.Types

/-! The MESI controllers of `coherence_ctrls.h` and `coherence_ctrls.cpp`, for one line in a
hierarchy of inclusive caches.  The caches through which a line goes form a tree: a cache has one
parent for the line, the one that `getParentId` selects.  A `Node` is a cache with the state of the
line and its directory entry, and a `Frame` the parent of a cache without that cache.  A line that
a cache does not hold is one in state `I` with an empty entry.  An operation is `none` when an
assertion of the controllers fails. -/

namespace Doppelganger.Mesi

open MESIState

/-- `Entry` of `MESITopCC`, with one sharer bit for each child. -/
structure Entry where
  numSharers : Nat
  sharers : List Bool
  exclusive : Bool
deriving DecidableEq, Repr

def Entry.isEmpty (e : Entry) : Bool := e.numSharers == 0

def Entry.isExclusive (e : Entry) : Bool := e.numSharers == 1 && e.exclusive

/-- `e->sharers[c]`. -/
def Entry.sharer (e : Entry) (c : Nat) : Bool := e.sharers.getD c false

/-- A terminal cache, or a cache with children. -/
inductive Node
  | terminal (state : MESIState)
  | cache (state : MESIState) (entry : Entry) (children : List Node)

/-- The state of the bottom controller. -/
def Node.state : Node → MESIState
  | terminal s => s
  | cache s _ _ => s

def Node.setState (s : MESIState) : Node → Node
  | terminal _ => terminal s
  | cache _ e cs => cache s e cs

/-- A cache with children, without the child between `left` and `right`. -/
structure Frame where
  state : MESIState
  entry : Entry
  left : List Node
  right : List Node

def Frame.plug (f : Frame) (child : Node) : Node :=
  .cache f.state f.entry (f.left ++ child :: f.right)

/-- The whole tree, from a node and its ancestors. -/
def plugAll (fs : List Frame) (node : Node) : Node := fs.foldl (fun n f => f.plug n) node

def Node.unplug (childId : Nat) : Node → Option (Frame × Node)
  | terminal _ => none
  | cache s e cs => cs[childId]?.map fun child =>
      (⟨s, e, cs.take childId, cs.drop (childId + 1)⟩, child)

/-- The flags of a request on which the controllers act. -/
structure Flags where
  noExcl : Bool
  putxKeepExcl : Bool
deriving DecidableEq, Repr

/-- `MESIBottomCC::isExclusive`. -/
def isExclusive (s : MESIState) : Bool := s == E || s == M

/-! ### Invalidations -/

/-- `MESIBottomCC::processInval`: the state after it, and `*reqWriteback`. -/
def bccProcessInval (type : InvType) (s : MESIState) (reqWriteback : Bool) :
    Option (MESIState × Bool) :=
  if s = I then none
  else match type with
    | .INVX => if s = E ∨ s = M then some (S, reqWriteback || s == M) else none
    | .INV => some (I, reqWriteback || s == M)
    | .FWD => if s = S then some (s, reqWriteback) else none

/-- `MESITopCC::sendInvalidates`, where `sent` is what its loop over the children leaves: the sharer
bits, the children, `sentInvs` and `*reqWriteback`. -/
def sendInvalidates (type : InvType) (e : Entry) (children : List Node) (reqWriteback : Bool)
    (sent : Option (List Bool × List Node × Nat × Bool)) : Option (Entry × List Node × Bool) :=
  if type = .INVX ∧ e.isExclusive = false then some (e, children, reqWriteback)
  else if e.isEmpty then some (e, children, reqWriteback)
  else sent.bind fun (sharers, children, sentInvs, reqWriteback) =>
    if sentInvs = e.numSharers then
      if type = .INV then some (⟨0, sharers, e.exclusive⟩, children, reqWriteback)
      else if e.exclusive = true ∧ e.numSharers = 1 then
        some (⟨e.numSharers, sharers, false⟩, children, reqWriteback)
      else none
    else none

mutual

/-- `processInv` of `MESICC` and of `MESITerminalCC`. -/
def processInv (type : InvType) : Node → Bool → Option (Node × Bool)
  | .terminal s, reqWriteback =>
    (bccProcessInval type s reqWriteback).map fun (s, wb) => (.terminal s, wb)
  | .cache s e children, reqWriteback =>
    -- `MESITopCC::processInval` sends nothing on a FWD.
    let top := if type = .FWD then some (e, children, reqWriteback)
      else sendInvalidates type e children reqWriteback
        (invChildren type e.sharers children reqWriteback)
    top.bind fun (e, children, wb) =>
      (bccProcessInval type s wb).map fun (s, wb) => (.cache s e children, wb)

/-- The loop of `sendInvalidates` over the children. -/
def invChildren (type : InvType) :
    List Bool → List Node → Bool → Option (List Bool × List Node × Nat × Bool)
  | sharers, [], wb => some (sharers, [], 0, wb)
  | [], c :: cs, wb => some ([], c :: cs, 0, wb)
  | true :: bs, c :: cs, wb =>
    (processInv type c wb).bind fun (c, wb) =>
      (invChildren type bs cs wb).map fun (bs, cs, sentInvs, wb) =>
        (decide (type ≠ .INV) :: bs, c :: cs, sentInvs + 1, wb)
  | false :: bs, c :: cs, wb =>
    (invChildren type bs cs wb).map fun (bs, cs, sentInvs, wb) =>
      (false :: bs, c :: cs, sentInvs, wb)

end

/-- `sendInvalidates` with its loop. -/
def tccSendInvalidates (type : InvType) (e : Entry) (children : List Node) (reqWriteback : Bool) :
    Option (Entry × List Node × Bool) :=
  sendInvalidates type e children reqWriteback (invChildren type e.sharers children reqWriteback)

/-! ### Accesses -/

/-- `SimpleMemory::access`: what it stores in `*req.state`. -/
def memoryAccess (type : AccessType) (flags : Flags) : MESIState :=
  match type with
  | .PUTS | .PUTX => I
  | .GETS => if flags.noExcl then S else E
  | .GETX => M

/-- `MESITopCC::processAccess`: the entry, the children, one of whose states is `*childState`, and
`*inducedWriteback`. -/
def tccProcessAccess (type : AccessType) (flags : Flags) (childId : Nat) (haveExclusive : Bool)
    (e : Entry) (children : List Node) : Option (Entry × List Node × Bool) :=
  let setChild (s : MESIState) (children : List Node) := children.modify childId (Node.setState s)
  let remove :=
    if e.sharer childId then
      some (⟨e.numSharers - 1, e.sharers.set childId false, e.exclusive⟩, setChild I children,
        false)
    else none
  match type with
  | .PUTX =>
    if e.isExclusive then
      if flags.putxKeepExcl then
        if e.sharer childId ∧ (children[childId]?.map Node.state) = some M then
          some (e, setChild E children, false)
        else none
      else remove
    else none
  | .PUTS => remove
  | .GETS =>
    if e.isEmpty ∧ haveExclusive ∧ flags.noExcl = false then
      some (⟨1, e.sharers.set childId true, true⟩, setChild E children, false)
    else if e.sharer childId then none
    else
      let downgraded := if e.isExclusive then tccSendInvalidates .INVX e children false
        else some (e, children, false)
      downgraded.bind fun (e, children, wb) =>
        if e.isExclusive then none
        else some (⟨e.numSharers + 1, e.sharers.set childId true, false⟩, setChild S children, wb)
  | .GETX =>
    if haveExclusive then
      let upgraded := if e.sharer childId then
          if e.isExclusive then none
          else some ⟨e.numSharers - 1, e.sharers.set childId false, e.exclusive⟩
        else some e
      upgraded.bind fun e =>
        (tccSendInvalidates .INV e children false).bind fun (e, children, wb) =>
          if e.numSharers + 1 = 1 then
            some (⟨e.numSharers + 1, e.sharers.set childId true, true⟩, setChild M children, wb)
          else none
    else none

/-- `MESIBottomCC::processAccess` on a node, whose ancestors are `fs`; `up` is the call of `access`
of its parent. -/
def bccProcessAccess (type : AccessType) (fs : List Frame) (node : Node)
    (up : Node → Option (List Frame × Node)) : Option (List Frame × Node) :=
  match type with
  | .PUTS => if node.state ≠ I then some (fs, node) else none
  | .PUTX =>
    if node.state = M then some (fs, node)
    else if node.state = E then some (fs, node.setState M)
    else none
  | .GETS =>
    if node.state = I then
      (up node).bind fun (fs, node) =>
        if node.state = S ∨ node.state = E then some (fs, node) else none
    else some (fs, node)
  | .GETX =>
    let done := if node.state = I ∨ node.state = S then up node
      else if node.state = E then some (fs, node.setState M)
      else some (fs, node)
    done.bind fun (fs, node) => if node.state = M then some (fs, node) else none

/-- `MESIBottomCC::processWritebackOnAccess`. -/
def processWritebackOnAccess (s : MESIState) : Option MESIState :=
  if s = M ∨ s = E then some M else none

/-- `MESICC::processAccess` of an inclusive cache, on a request of child `childId`. -/
def processAccess (type : AccessType) (flags : Flags) (childId : Nat) (fs : List Frame)
    (node : Node) (up : Node → Option (List Frame × Node)) : Option (List Frame × Node) :=
  if (type = .PUTS ∨ type = .PUTX) ∧ node.state = I then none
  else (bccProcessAccess type fs node up).bind fun (fs, node) =>
    match node with
    | .terminal _ => none
    | .cache s e children =>
      (tccProcessAccess type flags childId (isExclusive s) e children).bind
        fun (e, children, lowerLevelWriteback) =>
          if lowerLevelWriteback then
            (processWritebackOnAccess s).map fun s => (fs, .cache s e children)
          else some (fs, .cache s e children)

/-- The call of `access` of the parent of `child`, or of memory above the root. -/
def access (type : AccessType) (flags : Flags) :
    List Frame → Node → Option (List Frame × Node)
  | [], child => some ([], child.setState (memoryAccess type flags))
  | f :: fs, child =>
    (processAccess type flags f.left.length fs (f.plug child) (access type flags fs)).bind
      fun (fs, node) => (node.unplug f.left.length).map fun (f, child) => (f :: fs, child)

/-! ### Evictions -/

/-- `MESIBottomCC::processEviction`, with the request that it sends up. -/
def bccProcessEviction (lowerLevelWriteback : Bool) (fs : List Frame) (node : Node) :
    Option (List Frame × Node × Option AccessType) :=
  let put (type : AccessType) (node : Node) := (access type ⟨false, false⟩ fs node).map
    fun (fs, node) => (fs, node, some type)
  let dirtied := if lowerLevelWriteback then
      if node.state = M ∨ node.state = E then some (node.setState M) else none
    else some node
  let sent := dirtied.bind fun node =>
    match node.state with
    | I => some (fs, node, none)
    | S | E => put .PUTS node
    | M => put .PUTX node
  sent.bind fun (fs, node, request) =>
    if node.state = I then some (fs, node, request) else none

/-- `processEviction` of `MESICC` and of `MESITerminalCC`. -/
def processEviction (fs : List Frame) : Node → Option (List Frame × Node × Option AccessType)
  | .terminal s => bccProcessEviction false fs (.terminal s)
  | .cache s e children =>
    (tccSendInvalidates .INV e children false).bind fun (e, children, lowerLevelWriteback) =>
      bccProcessEviction lowerLevelWriteback fs (.cache s e children)

end Doppelganger.Mesi
