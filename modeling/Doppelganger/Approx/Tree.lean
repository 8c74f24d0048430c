import Doppelganger.Types
import Mathlib.Data.Option.Basic

/-! The 2-3 tree of `tree23.cpp`.  A node that the code changes through pointers is rebuilt here:
`stack` and `path_info` are a list of frames, each a parent with a hole where the search went on,
and `plug` puts a node back under its ancestors.  A null key is 0 and a null item is `none`.  An
operation is `none` when the source would follow a null pointer, take one kind of link for the
other, or run past the ends of the stack. -/

namespace Doppelganger.Approx

/-- `e_approx_t`. -/
inductive ApproxType
  | noApprox
  | approxUint
  | approxFp
deriving DecidableEq, Repr

/-- `approx_region_t`. -/
structure ApproxRegion where
  addr : Address
  range : UInt32
  addrStart : Address
  addrEnd : Address
  approxType : ApproxType
deriving DecidableEq, Repr

/-- `TREE23_STACK_SIZE`. -/
def stackSize : Nat := 1000

/-- `compare`: keys are addresses. -/
def compare (a b : Address) : Int := if a = b then 0 else if a > b then 1 else -1

/-- A node whose `link_kind` is `LEAF_LINK`. -/
structure LeafNode where
  keyItem1 : Address
  keyItem2 : Address
  left : Option ApproxRegion
  middle : Option ApproxRegion
  right : Option ApproxRegion
deriving DecidableEq, Repr

/-- A null pointer, a node with leaf links, or a node with internal links. -/
inductive Node
  | null
  | leaf (p : LeafNode)
  | internal (keyItem1 keyItem2 : Address) (left middle right : Node)
deriving DecidableEq, Repr

/-- An entry of the stack, with the side that `path_info` says the search took: the other fields
of the parent. -/
inductive Frame
  | left (keyItem1 keyItem2 : Address) (middle right : Node)
  | middle (keyItem1 keyItem2 : Address) (left right : Node)
  | right (keyItem1 keyItem2 : Address) (left middle : Node)
deriving DecidableEq, Repr

/-- `tree23_t`. -/
structure Tree where
  root : Node
  n : Nat
  minItem : Address
deriving DecidableEq, Repr

/-- What `tree23_insert` returns: a null pointer, an item, or the key of one. -/
inductive Pointer
  | null
  | item (region : ApproxRegion)
  | key (addr : Address)
deriving DecidableEq, Repr

def Pointer.isNull : Pointer → Bool
  | null => true
  | item _ => false
  | key addr => addr == 0

/-- `tree23_alloc`. -/
def alloc : Tree := ⟨.leaf ⟨0, 0, none, none, none⟩, 0, 0⟩

def Frame.plug : Node → Frame → Node
  | p, .left k1 k2 m r => .internal k1 k2 p m r
  | p, .middle k1 k2 l r => .internal k1 k2 l p r
  | p, .right k1 k2 l m => .internal k1 k2 l m p

/-- The root above the node `p`, whose ancestors are `stack`. -/
def plug (p : Node) (stack : List Frame) : Node := stack.foldl Frame.plug p

/-- The search of `tree23_insert` and `tree23_delete` for the leaf node of a key. -/
def descend (key : Address) : Node → List Frame → Option (LeafNode × List Frame)
  | .null, _ => none
  | .leaf p, stack => some (p, stack)
  | .internal k1 k2 l m r, stack =>
    if stack.length < stackSize then
      if k2 ≠ 0 ∧ 0 ≤ compare key k2 then descend key r (.right k1 k2 l m :: stack)
      else if 0 ≤ compare key k1 then descend key m (.middle k1 k2 l r :: stack)
      else descend key l (.left k1 k2 m r :: stack)
    else none

/-- The search of `tree23_find`, which needs no stack. -/
def findLeaf (key : Address) : Node → Option LeafNode
  | .null => none
  | .leaf p => some p
  | .internal k1 k2 l m r =>
    if k2 ≠ 0 ∧ 0 ≤ compare key k2 then findLeaf key r
    else if 0 ≤ compare key k1 then findLeaf key m
    else findLeaf key l

def find (key : Address) (t : Tree) : Option (Option ApproxRegion) :=
  if t.n ≤ 1 then
    match t.root with
    | .leaf p =>
      if t.n = 0 then some none
      else p.left.map fun a => if 0 ≤ compare key a.addr then some a else none
    | _ => none
  else
    (findLeaf key t.root).bind fun p =>
      if p.keyItem2 ≠ 0 ∧ 0 ≤ compare key p.keyItem2 then some p.right
      else if 0 ≤ compare key p.keyItem1 then some p.middle
      else p.left.map fun a => if compare key a.addr < 0 then none else some a

/-- `tree23_find_min`. -/
def findMin (t : Tree) : Address := t.minItem

/-- What the insertion at leaf node `p` comes to. -/
inductive LeafInsert
  | failed (found : Pointer)
  | done (p : LeafNode)
  | split (p newNode : LeafNode)
deriving DecidableEq, Repr

/-- The insertion into a leaf node below which the search ends, with the new `min_item` if the
region becomes the smallest item. -/
def insertLeaf (region : ApproxRegion) (p : LeafNode) : Option (LeafInsert × Option Address) :=
  let item := region.addr
  if p.keyItem2 ≠ 0 ∧ 0 ≤ compare item p.keyItem2 then
    if compare item p.keyItem2 = 0 then some (.failed (.key p.keyItem2), none)
    else some (.split { p with keyItem2 := 0, right := none }
      ⟨item, 0, p.right, some region, none⟩, none)
  else if 0 ≤ compare item p.keyItem1 then
    if compare item p.keyItem1 = 0 then some (.failed (.key p.keyItem1), none)
    else if p.keyItem2 ≠ 0 then
      p.right.map fun c =>
        (.split { p with keyItem2 := 0, right := none } ⟨c.addr, 0, some region, some c, none⟩,
          none)
    else some (.done { p with keyItem2 := item, right := some region }, none)
  else
    p.left.bind fun a =>
      if compare item a.addr = 0 then some (.failed (.key a.addr), none)
      else
        -- A region smaller than every item takes the left place, and the item there is inserted.
        let smaller := compare item a.addr ≤ 0
        let inserted := if smaller then a else region
        let left := if smaller then region else a
        let min := if smaller then some item else none
        if p.keyItem2 ≠ 0 then
          p.right.map fun c =>
            (.split ⟨inserted.addr, 0, some left, some inserted, none⟩
              ⟨c.addr, 0, p.middle, some c, none⟩, min)
        else
          p.middle.map fun b =>
            (.done ⟨inserted.addr, b.addr, some left, some inserted, some b⟩, min)

/-- The loop that inserts node `x`, whose smallest key is `xMin`, beside node `p`. -/
def insertUp (x : Node) (xMin : Address) (p : Node) : List Frame → Node
  | [] => .internal xMin 0 p x .null
  | .right k1 k2 l m :: stack =>
    insertUp (.internal xMin 0 p x .null) k2 (.internal k1 0 l m .null) stack
  | .middle k1 k2 l r :: stack =>
    if k2 ≠ 0 then insertUp (.internal k2 0 x r .null) xMin (.internal k1 0 l p .null) stack
    else plug (.internal k1 xMin l p x) stack
  | .left k1 k2 m r :: stack =>
    if k2 ≠ 0 then insertUp (.internal k2 0 m r .null) k1 (.internal xMin 0 p x .null) stack
    else plug (.internal xMin k1 p x m) stack

def insert (region : ApproxRegion) (t : Tree) : Option (Pointer × Tree) :=
  if t.n ≤ 1 then
    match t.root with
    | .leaf p =>
      if t.n = 0 then
        some (.null, ⟨.leaf { p with left := some region }, t.n + 1, region.addr⟩)
      else p.left.map fun a =>
        if compare region.addr a.addr = 0 then (.item a, t)
        else if 0 < compare region.addr a.addr then
          (.null, ⟨.leaf { p with keyItem1 := region.addr, middle := some region }, t.n + 1,
            t.minItem⟩)
        else
          (.null, ⟨.leaf { p with keyItem1 := a.addr, middle := some a, left := some region },
            t.n + 1, region.addr⟩)
    | _ => none
  else
    (descend region.addr t.root []).bind fun (p, stack) =>
      (insertLeaf region p).bind fun (result, min) =>
        let minItem := min.getD t.minItem
        match result with
        | .failed found => some (found, t)
        | .done p => some (.null, ⟨plug (.leaf p) stack, t.n + 1, minItem⟩)
        | .split p newNode => newNode.left.map fun a =>
          (.null, ⟨insertUp (.leaf newNode) a.addr (.leaf p) stack, t.n + 1, minItem⟩)

/-- `*min_key_ptr = key`, where `min_key_ptr` is the key of the last turn to the middle or the
right; `none` when there was no such turn. -/
def setMinKey (key : Address) : List Frame → Option (List Frame)
  | [] => none
  | .right k1 _ l m :: stack => some (.right k1 key l m :: stack)
  | .middle _ k2 l r :: stack => some (.middle key k2 l r :: stack)
  | .left k1 k2 m r :: stack => (setMinKey key stack).map (.left k1 k2 m r :: ·)

/-- The loop that merges `mergeNode`, the only child of node `p`, with a child of a sibling of `p`.
`pKey2` and `pRight` are the fields of `p` that it keeps. -/
def deleteUp (pKey2 : Address) (pRight mergeNode : Node) : List Frame → Option Node
  | [] => some mergeNode
  | .right k1 k2 l m :: stack =>
    match m with
    | .internal q1 q2 ql qm qr =>
      if q2 ≠ 0 then
        some (plug (.internal k1 q2 l (.internal q1 0 ql qm .null)
          (.internal k2 pKey2 qr mergeNode pRight)) stack)
      else some (plug (.internal k1 0 l (.internal q1 k2 ql qm mergeNode) .null) stack)
    | _ => none
  | .middle k1 k2 l r :: stack =>
    match l with
    | .internal q1 q2 ql qm qr =>
      if q2 ≠ 0 then
        some (plug (.internal q2 k2 (.internal q1 0 ql qm .null)
          (.internal k1 pKey2 qr mergeNode pRight) r) stack)
      else
        let q := Node.internal q1 k1 ql qm mergeNode
        if k2 ≠ 0 then some (plug (.internal k2 0 q r .null) stack)
        else deleteUp k2 r q stack
    | _ => none
  | .left k1 k2 m r :: stack =>
    match m with
    | .internal q1 q2 ql qm qr =>
      if q2 ≠ 0 then
        some (plug (.internal q1 k2 (.internal k1 pKey2 mergeNode ql pRight)
          (.internal q2 0 qm qr .null) r) stack)
      else
        let q := Node.internal k1 q1 mergeNode ql qm
        if k2 ≠ 0 then some (plug (.internal k2 0 q r .null) stack)
        else deleteUp k2 r q stack
    | _ => none

/-- The merging of `mergeItem`, the only item left in leaf node `p`, with an item of a sibling. -/
def mergeLeaf (p : LeafNode) (mergeItem : ApproxRegion) : List Frame → Option Node
  | [] => none
  | .right k1 _ l m :: stack =>
    match m with
    | .leaf q =>
      if q.keyItem2 ≠ 0 then
        some (plug (.internal k1 q.keyItem2 l (.leaf { q with keyItem2 := 0, right := none })
          (.leaf { p with
            left := q.right, keyItem1 := mergeItem.addr, middle := some mergeItem })) stack)
      else
        some (plug (.internal k1 0 l
          (.leaf { q with keyItem2 := mergeItem.addr, right := some mergeItem }) .null) stack)
    | _ => none
  | .middle _ k2 l r :: stack =>
    match l with
    | .leaf q =>
      if q.keyItem2 ≠ 0 then
        some (plug (.internal q.keyItem2 k2 (.leaf { q with keyItem2 := 0, right := none })
          (.leaf { p with
            left := q.right, keyItem1 := mergeItem.addr, middle := some mergeItem }) r) stack)
      else
        let q := Node.leaf { q with keyItem2 := mergeItem.addr, right := some mergeItem }
        if k2 ≠ 0 then some (plug (.internal k2 0 q r .null) stack)
        else deleteUp k2 r q stack
    | _ => none
  | .left _ k2 m r :: stack =>
    match m with
    | .leaf q => q.left.bind fun a =>
      if q.keyItem2 ≠ 0 then
        some (plug (.internal q.keyItem1 k2
          (.leaf { p with left := some mergeItem, keyItem1 := a.addr, middle := some a })
          (.leaf ⟨q.keyItem2, 0, q.middle, q.right, none⟩) r) stack)
      else
        let q := Node.leaf ⟨a.addr, q.keyItem1, some mergeItem, some a, q.middle⟩
        if k2 ≠ 0 then some (plug (.internal k2 0 q r .null) stack)
        else deleteUp k2 r q stack
    | _ => none

/-- The part of `tree23_delete` for a tree of at most two items, all in the root. -/
def deleteSmall (key : Address) (p : LeafNode) (t : Tree) : Option (Option ApproxRegion × Tree) :=
  if t.n ≤ 1 then
    if t.n = 0 then some (none, t)
    else p.left.map fun a =>
      if compare key a.addr = 0 then (some a, ⟨.leaf { p with left := none }, t.n - 1, 0⟩)
      else (none, t)
  else
    p.middle.bind fun b =>
      if 0 ≤ compare key b.addr then
        if compare key b.addr = 0 then
          some (some b, ⟨.leaf { p with keyItem1 := 0, middle := none }, t.n - 1, t.minItem⟩)
        else some (none, t)
      else p.left.map fun a =>
        if compare key a.addr = 0 then
          (some a, ⟨.leaf { p with left := p.middle, keyItem1 := 0, middle := none }, t.n - 1,
            p.keyItem1⟩)
        else (none, t)

/-- The removal of the left item of leaf node `p`, which changes a key above or `min_item`. -/
def deleteLeft (p : LeafNode) (stack : List Frame) (t : Tree) : Option Tree :=
  p.middle.bind fun b =>
    let moved := setMinKey b.addr stack
    let stack := moved.getD stack
    let minItem := if moved.isSome then t.minItem else p.keyItem1
    if p.keyItem2 ≠ 0 then
      some ⟨plug (.leaf ⟨p.keyItem2, 0, p.middle, p.right, none⟩) stack, t.n - 1, minItem⟩
    else (mergeLeaf p b stack).map fun root => ⟨root, t.n - 1, minItem⟩

/-- The removal of the middle item of leaf node `p`. -/
def deleteMiddle (p : LeafNode) (stack : List Frame) (t : Tree) : Option Tree :=
  if p.keyItem2 ≠ 0 then
    some ⟨plug (.leaf ⟨p.keyItem2, 0, p.left, p.right, none⟩) stack, t.n - 1, t.minItem⟩
  else p.left.bind fun a => (mergeLeaf p a stack).map fun root => ⟨root, t.n - 1, t.minItem⟩

def delete (key : Address) (t : Tree) : Option (Option ApproxRegion × Tree) :=
  if t.n ≤ 2 then
    match t.root with
    | .leaf p => deleteSmall key p t
    | _ => none
  else
    (descend key t.root []).bind fun (p, stack) =>
      if p.keyItem2 ≠ 0 ∧ 0 ≤ compare key p.keyItem2 then
        if compare key p.keyItem2 ≠ 0 then some (none, t)
        else some (p.right,
          ⟨plug (.leaf { p with keyItem2 := 0, right := none }) stack, t.n - 1, t.minItem⟩)
      else if 0 ≤ compare key p.keyItem1 then
        if compare key p.keyItem1 ≠ 0 then some (none, t)
        else (deleteMiddle p stack t).map fun t => (p.middle, t)
      else p.left.bind fun a =>
        if compare key a.addr ≠ 0 then some (none, t)
        else (deleteLeft p stack t).map fun t => (some a, t)

/-- The search of `tree23_delete_min`. -/
def descendLeft : Node → List Frame → Option (LeafNode × List Frame)
  | .null, _ => none
  | .leaf p, stack => some (p, stack)
  | .internal k1 k2 l m r, stack =>
    if stack.length < stackSize then descendLeft l (.left k1 k2 m r :: stack) else none

/-- The merging loop of `tree23_delete_min`, where `p` is always a left child. -/
def deleteMinUp (pKey2 : Address) (pRight mergeNode : Node) : List Frame → Option Node
  | [] => some mergeNode
  | .left k1 k2 m r :: stack =>
    match m with
    | .internal q1 q2 ql qm qr =>
      if q2 ≠ 0 then
        some (plug (.internal q1 k2 (.internal k1 pKey2 mergeNode ql pRight)
          (.internal q2 0 qm qr .null) r) stack)
      else
        let q := Node.internal k1 q1 mergeNode ql qm
        if k2 ≠ 0 then some (plug (.internal k2 0 q r .null) stack)
        else deleteMinUp k2 r q stack
    | _ => none
  | _ => none

def mergeMinLeaf (p : LeafNode) (mergeItem : ApproxRegion) : List Frame → Option Node
  | .left _ k2 m r :: stack =>
    match m with
    | .leaf q => q.left.bind fun a =>
      if q.keyItem2 ≠ 0 then
        some (plug (.internal q.keyItem1 k2
          (.leaf { p with left := some mergeItem, keyItem1 := a.addr, middle := some a })
          (.leaf ⟨q.keyItem2, 0, q.middle, q.right, none⟩) r) stack)
      else
        let q := Node.leaf ⟨a.addr, q.keyItem1, some mergeItem, some a, q.middle⟩
        if k2 ≠ 0 then some (plug (.internal k2 0 q r .null) stack)
        else deleteMinUp k2 r q stack
    | _ => none
  | _ => none

def deleteMin (t : Tree) : Option (Option ApproxRegion × Tree) :=
  if t.n ≤ 2 then
    match t.root with
    | .leaf p =>
      if t.n ≤ 1 then
        if t.n = 0 then some (none, t)
        else some (p.left, ⟨.leaf { p with left := none }, t.n - 1, 0⟩)
      else
        some (p.left, ⟨.leaf { p with left := p.middle, keyItem1 := 0, middle := none }, t.n - 1,
          p.keyItem1⟩)
    | _ => none
  else
    (descendLeft t.root []).bind fun (p, stack) =>
      if p.keyItem2 ≠ 0 then
        some (p.left, ⟨plug (.leaf ⟨p.keyItem2, 0, p.middle, p.right, none⟩) stack, t.n - 1,
          p.keyItem1⟩)
      else p.middle.bind fun b => (mergeMinLeaf p b stack).map fun root =>
        (p.left, ⟨root, t.n - 1, p.keyItem1⟩)

end Doppelganger.Approx
