import Mathlib.Data.List.Perm.Basic

/-! The children of a `TimingEvent`: none, one in place, or a list of blocks of three whose first
block is the one that fills up.  `visitChildren` goes through the blocks and stops in each at the
first empty slot. -/

namespace Doppelganger.Weave

open List

/-- `TIMING_BLOCK_EVENTS` -/
abbrev blockEvents : Nat := 3

/-- The slots of a `TimingEventBlock`.  Its `next` is the next one of the list. -/
abbrev Block (ι : Type*) := List (Option ι)

/-- `numChildren`, and the union of `child` and `children`: the first is used for one child, and the
second for more. -/
structure Children (ι : Type*) where
  numChildren : Nat
  child : Option ι
  children : List (Block ι)

namespace Children

variable {ι : Type*}

def init : Children ι := ⟨0, none, []⟩

/-- The part of `TimingEvent::addChild` for the parent. -/
def addChild (childEv : ι) (ch : Children ι) : Children ι :=
  if ch.numChildren = 0 then { ch with numChildren := 1, child := some childEv }
  else if ch.numChildren = 1 then
    { ch with
      children := [((replicate blockEvents none).set 0 ch.child).set 1 (some childEv)]
      numChildren := 2 }
  else
    let idx := ch.numChildren % blockEvents
    let blocks := if idx = 0 then replicate blockEvents none :: ch.children else ch.children
    { ch with
      children := blocks.modifyHead (·.set idx (some childEv))
      numChildren := ch.numChildren + 1 }

def visitBlock : Block ι → List ι
  | some e :: slots => e :: visitBlock slots
  | _ => []

/-- The children in the order of the visit, or `none` if the assertion at its end fails. -/
def visitChildren (ch : Children ι) : Option (List ι) :=
  if ch.numChildren = 0 then some []
  else if ch.numChildren = 1 then ch.child.map ([·])
  else
    let visited := ch.children.flatMap visitBlock
    if visited.length = ch.numChildren then some visited else none

/-- A block with the children `cs`. -/
def pack (cs : List ι) : Block ι := cs.map some ++ replicate (blockEvents - cs.length) none

/-- `cs` are the children, in the order of the visit: all blocks but the first are full. -/
inductive Packed : Children ι → List ι → Prop
  | none (child : Option ι) (children : List (Block ι)) : Packed ⟨0, child, children⟩ []
  | one (c : ι) (children : List (Block ι)) : Packed ⟨1, some c, children⟩ [c]
  | blocks (numChildren : Nat) (child : Option ι) (first : List ι) (full : List (List ι))
      (hfirst : first ≠ [] ∧ first.length ≤ blockEvents)
      (hfull : ∀ cs ∈ full, cs.length = blockEvents)
      (hnum : numChildren = first.length + full.length * blockEvents) (htwo : 2 ≤ numChildren) :
      Packed ⟨numChildren, child, (first :: full).map pack⟩ (first ++ full.flatten)

theorem visitBlock_slots (n : Nat) : ∀ cs : List ι,
    visitBlock (cs.map some ++ replicate n none) = cs
  | [] => by cases n <;> rfl
  | c :: cs => congrArg (c :: ·) (visitBlock_slots n cs)

theorem length_flatten_full {full : List (List ι)} (h : ∀ cs ∈ full, cs.length = blockEvents) :
    full.flatten.length = full.length * blockEvents := by
  rw [length_flatten, map_congr_left h, map_const', sum_replicate_nat]

/-- The visit reaches each child in each block. -/
theorem Packed.visitChildren {ch : Children ι} {cs : List ι} (h : Packed ch cs) :
    ch.visitChildren = some cs := by
  cases h with
  | none => rfl
  | one => rfl
  | blocks n child first full hfirst hfull hnum htwo =>
    have hvisit : ((first :: full).map pack).flatMap visitBlock = first ++ full.flatten := by
      have hpack : (fun cs : List ι => visitBlock (pack cs)) = id :=
        funext fun cs => visitBlock_slots _ cs
      rw [flatMap_map, hpack, flatMap_id, flatten_cons]
    have hlength := length_flatten_full hfull
    rw [Children.visitChildren, if_neg (show n ≠ 0 by omega), if_neg (show n ≠ 1 by omega)]
    simp only [hvisit]
    rw [if_pos (by rw [length_append, hlength, hnum])]

/-- A child goes into the first empty slot of a block. -/
theorem set_pack {cs : List ι} (c : ι) (h : cs.length < blockEvents) :
    (pack cs).set cs.length (some c) = pack (cs ++ [c]) :=
  match cs, h with
  | [], _ | [_], _ | [_, _], _ => rfl

/-- One more child, in a new block when the first one is full. -/
theorem Packed.addChild {ch : Children ι} {cs : List ι} (h : Packed ch cs) (c : ι) :
    ∃ cs', Packed (ch.addChild c) cs' ∧ cs'.Perm (c :: cs) := by
  cases h with
  | none child children => exact ⟨[c], .one c children, .rfl⟩
  | one d children =>
    refine ⟨[d, c], .blocks 2 (some d) [d, c] [] ⟨by simp, ?_⟩ (by simp) rfl (Nat.le_refl 2),
      .swap ..⟩
    exact Nat.le_succ 2
  | blocks n child first full hfirst hfull hnum htwo =>
    rw [Children.addChild, if_neg (show n ≠ 0 by omega), if_neg (show n ≠ 1 by omega)]
    have hpos := length_pos_of_ne_nil hfirst.1
    have hidx : n % blockEvents = first.length % blockEvents := by
      rw [hnum, Nat.add_mul_mod_self_right]
    rcases Nat.lt_or_eq_of_le hfirst.2 with hlt | hfull'
    · have hne : ¬n % blockEvents = 0 := by
        rw [hidx, Nat.mod_eq_of_lt hlt]
        omega
      refine ⟨(first ++ [c]) ++ full.flatten, ?_, ?_⟩
      · simp only [if_neg hne, map_cons, modifyHead_cons]
        rw [hidx, Nat.mod_eq_of_lt hlt, set_pack c hlt]
        refine .blocks (n + 1) child (first ++ [c]) full ⟨by simp, ?_⟩ hfull ?_ (by omega)
        · rw [length_append]
          exact hlt
        · rw [hnum, length_append, length_singleton]
          omega
      · rw [append_assoc]
        exact perm_middle
    · have hzero : n % blockEvents = 0 := by rw [hidx, hfull', Nat.mod_self]
      refine ⟨[c] ++ (first :: full).flatten, ?_, .rfl⟩
      simp only [hzero]
      refine .blocks (n + 1) child [c] (first :: full) ⟨by simp, ?_⟩ ?_ ?_ (by omega)
      · exact Nat.le_add_left 1 2
      · simpa using ⟨hfull', hfull⟩
      · rw [hnum, hfull', length_cons, length_cons, length_nil, Nat.add_mul]
        omega

end Children

end Doppelganger.Weave
