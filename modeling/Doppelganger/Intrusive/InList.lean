import Doppelganger.Lib.Run
import Mathlib.Logic.Function.Basic

/-! The intrusive lists of `intrusive_list.h`.  The elements are of a type `α` and the lists of a
type `κ`, in a heap that has their fields; a null pointer is `none`.  An operation is `none` when an
assertion fails.  `elems` is a number, as there are fewer elements than addresses. -/

namespace Doppelganger.Intrusive

open Function

variable {α κ : Type*}

structure InListNode (α κ : Type*) where
  next : Option α
  prev : Option α
  owner : Option κ

structure InList (α : Type*) where
  head : Option α
  tail : Option α
  elems : Nat

/-- The elements and the lists. -/
structure Heap (α κ : Type*) where
  node : α → InListNode α κ
  list : κ → InList α

/-- What the constructors leave. -/
def Heap.init : Heap α κ := ⟨fun _ => ⟨none, none, none⟩, fun _ => ⟨none, none, 0⟩⟩

namespace Heap

section Fields

variable [DecidableEq α] (e : α) (link : Option α) (owner : Option κ) (h : Heap α κ) {x : α}

def setNext : Heap α κ := { h with node := update h.node e { h.node e with next := link } }

def setPrev : Heap α κ := { h with node := update h.node e { h.node e with prev := link } }

def setOwner : Heap α κ := { h with node := update h.node e { h.node e with owner := owner } }

variable {e}

theorem field_update {β γ : Type*} (f : α → β) (b : β) (field : β → γ) :
    field (update f e b x) = if x = e then field b else field (f x) := by
  rw [update_apply, apply_ite field]

theorem field_keep {β γ : Type*} (f : α → β) (b : β) (field : β → γ) (hb : field b = field (f e)) :
    field (update f e b x) = field (f x) := by
  rcases eq_or_ne x e with rfl | hx
  · rw [update_self, hb]
  · rw [update_of_ne hx]

@[simp] theorem setNext_next : ((h.setNext e link).node x).next =
    if x = e then link else (h.node x).next := field_update h.node _ InListNode.next

@[simp] theorem setNext_prev : ((h.setNext e link).node x).prev = (h.node x).prev :=
  field_keep h.node _ InListNode.prev rfl

@[simp] theorem setNext_owner : ((h.setNext e link).node x).owner = (h.node x).owner :=
  field_keep h.node _ InListNode.owner rfl

@[simp] theorem setPrev_next : ((h.setPrev e link).node x).next = (h.node x).next :=
  field_keep h.node _ InListNode.next rfl

@[simp] theorem setPrev_prev : ((h.setPrev e link).node x).prev =
    if x = e then link else (h.node x).prev := field_update h.node _ InListNode.prev

@[simp] theorem setPrev_owner : ((h.setPrev e link).node x).owner = (h.node x).owner :=
  field_keep h.node _ InListNode.owner rfl

@[simp] theorem setOwner_next : ((h.setOwner e owner).node x).next = (h.node x).next :=
  field_keep h.node _ InListNode.next rfl

@[simp] theorem setOwner_prev : ((h.setOwner e owner).node x).prev = (h.node x).prev :=
  field_keep h.node _ InListNode.prev rfl

@[simp] theorem setOwner_owner : ((h.setOwner e owner).node x).owner =
    if x = e then owner else (h.node x).owner := field_update h.node _ InListNode.owner

@[simp] theorem setNext_list : (h.setNext e link).list = h.list := rfl

@[simp] theorem setPrev_list : (h.setPrev e link).list = h.list := rfl

@[simp] theorem setOwner_list : (h.setOwner e owner).list = h.list := rfl

end Fields

section Ends

variable [DecidableEq κ] (l : κ) (link : Option α) (elems : Nat) (h : Heap α κ)

def setHead : Heap α κ := { h with list := update h.list l { h.list l with head := link } }

def setTail : Heap α κ := { h with list := update h.list l { h.list l with tail := link } }

def setElems : Heap α κ := { h with list := update h.list l { h.list l with elems := elems } }

variable {l}

@[simp] theorem setHead_node : (h.setHead l link).node = h.node := rfl

@[simp] theorem setTail_node : (h.setTail l link).node = h.node := rfl

@[simp] theorem setElems_node : (h.setElems l elems).node = h.node := rfl

@[simp] theorem setHead_list : (h.setHead l link).list =
    update h.list l { h.list l with head := link } := rfl

@[simp] theorem setTail_list : (h.setTail l link).list =
    update h.list l { h.list l with tail := link } := rfl

@[simp] theorem setElems_list : (h.setElems l elems).list =
    update h.list l { h.list l with elems := elems } := rfl

end Ends

variable [DecidableEq α] [DecidableEq κ]

/-! ### `InListNode` -/

/-- `if (next) next->prev = prev` and `if (prev) prev->next = next` of `e`. -/
def bypass (e : α) (h : Heap α κ) : Heap α κ :=
  let h := (h.node e).next.elim h fun next => h.setPrev next (h.node e).prev
  (h.node e).prev.elim h fun prev => h.setNext prev (h.node e).next

def unlink (e : α) (lst : κ) (h : Heap α κ) : Option (Heap α κ) :=
  let h := ((h.bypass e).setNext e none).setPrev e none
  if (h.node e).owner = some lst then some (h.setOwner e none) else none

def linkPrev (e p : α) (lst : κ) (h : Heap α κ) : Option (Heap α κ) :=
  if (h.node e).owner = none ∧ (h.node e).prev = none ∧ (h.node e).next = none then
    ((h.node p).next.elim (some h) fun next =>
      if (h.node next).prev = some p then
        some ((h.setPrev next (some e)).setNext e (some next))
      else none).map fun h => ((h.setNext p (some e)).setPrev e (some p)).setOwner e (some lst)
  else none

/-! ### `InList` -/

variable (l : κ)

/-- The assertion at the start of `push_front` and `push_back`. -/
def Unlinked (e : α) (h : Heap α κ) : Prop :=
  (h.node e).next = none ∧ (h.node e).prev = none ∧ (h.node e).owner = none

instance (e : α) (h : Heap α κ) : Decidable (h.Unlinked e) := inferInstanceAs (Decidable (_ ∧ _))

def pushFront (e : α) (h : Heap α κ) : Option (Heap α κ) :=
  if h.Unlinked e then
    ((h.list l).head.elim (some ((h.setHead l (some e)).setTail l (some e))) fun head =>
      if (h.node head).prev = none ∧ (h.node head).owner = some l then
        some (((h.setNext e (some head)).setPrev head (some e)).setHead l (some e))
      else none).map fun h => (h.setOwner e (some l)).setElems l ((h.list l).elems + 1)
  else none

def pushBack (e : α) (h : Heap α κ) : Option (Heap α κ) :=
  if h.Unlinked e then
    (if (h.list l).head = none then
        some (((h.setHead l (some e)).setTail l (some e)).setOwner e (some l))
      else (h.list l).tail.bind fun tail =>
        (h.linkPrev e tail l).map fun h => h.setTail l (some e)).map fun h =>
      h.setElems l ((h.list l).elems + 1)
  else none

def popFront (h : Heap α κ) : Option (Heap α κ) :=
  (h.list l).head.elim (some h) fun e =>
    ((h.setHead l (h.node e).next).unlink e l).map fun h =>
      let h := if (h.list l).head = none then h.setTail l none else h
      h.setElems l ((h.list l).elems - 1)

/-- A list that has a `head` and no `tail` makes it read a null pointer. -/
def popBack (h : Heap α κ) : Option (Heap α κ) :=
  if (h.list l).head = none then some h
  else (h.list l).tail.bind fun e =>
    ((h.setTail l (h.node e).prev).unlink e l).map fun h =>
      let h := if (h.list l).tail = none then h.setHead l none else h
      h.setElems l ((h.list l).elems - 1)

def remove (e : α) (h : Heap α κ) : Option (Heap α κ) :=
  let h := if (h.list l).head = some e then h.setHead l (h.node e).next else h
  let h := if (h.list l).tail = some e then h.setTail l (h.node e).prev else h
  (h.unlink e l).map fun h => h.setElems l ((h.list l).elems - 1)

def insertAfter (prev e : α) (h : Heap α κ) : Option (Heap α κ) :=
  if (h.node e).owner = none ∧ (h.node prev).owner = some l then
    (h.linkPrev e prev l).map fun h =>
      let h := if (h.list l).tail = some prev then h.setTail l (some e) else h
      h.setElems l ((h.list l).elems + 1)
  else none

end Heap

/-! ### Sequences of calls -/

/-- The calls that change a list `l`. -/
inductive ListOp (α κ : Type*)
  | pushFront (l : κ) (e : α)
  | pushBack (l : κ) (e : α)
  | popFront (l : κ)
  | popBack (l : κ)
  | remove (l : κ) (e : α)
  | insertAfter (l : κ) (prev e : α)
deriving DecidableEq, Repr

variable [DecidableEq α] [DecidableEq κ]

def ListOp.step : ListOp α κ → Heap α κ → Option (Heap α κ)
  | pushFront l e => Heap.pushFront l e
  | pushBack l e => Heap.pushBack l e
  | popFront l => Heap.popFront l
  | popBack l => Heap.popBack l
  | remove l e => Heap.remove l e
  | insertAfter l prev e => Heap.insertAfter l prev e

/-- What the assertions say about owners. -/
def ListOp.Owned : ListOp α κ → Heap α κ → Prop
  | pushFront _ e, h | pushBack _ e, h => (h.node e).owner = none
  | popFront _, _ | popBack _, _ => True
  | remove l e, h => (h.node e).owner = some l
  | insertAfter l prev e, h => (h.node e).owner = none ∧ (h.node prev).owner = some l

instance : ∀ (op : ListOp α κ) (h : Heap α κ), Decidable (op.Owned h)
  | .pushFront .., _ | .pushBack .., _ | .remove .., _ => inferInstanceAs (Decidable (_ = _))
  | .popFront _, _ | .popBack _, _ => inferInstanceAs (Decidable True)
  | .insertAfter .., _ => inferInstanceAs (Decidable (_ ∧ _))

/-! ### What the calls are for -/

/-- `e` after the first `prev`. -/
def insertAfter (prev e : α) : List α → List α
  | [] => []
  | x :: xs => if x = prev then x :: e :: xs else x :: insertAfter prev e xs

/-- A call on lists in the sense of mathematics. -/
def ListOp.apply : ListOp α κ → (κ → List α) → κ → List α
  | pushFront l e, s => update s l (e :: s l)
  | pushBack l e, s => update s l (s l ++ [e])
  | popFront l, s => update s l (s l).tail
  | popBack l, s => update s l (s l).dropLast
  | remove l e, s => update s l ((s l).erase e)
  | insertAfter l prev e, s => update s l (Intrusive.insertAfter prev e (s l))

end Doppelganger.Intrusive
