import Mathlib.Data.List.Nodup
import Mathlib.Data.List.Perm.Subperm
import Mathlib.Data.Fintype.Pigeonhole
import Mathlib.Data.Set.Finite.List
import Mathlib.Order.Fin.Finset
import Mathlib.Logic.Relation

/-! Nodes with children, where each node is the child of one node at most: an exploration from the
root, first in first out, comes by no node twice, and what it does not reach hangs from a cycle. -/

namespace Doppelganger.Lib

variable {α : Type*}

/-- `x` is a child of `p`. -/
def ChildOf (children : α → List α) (p x : α) : Prop := x ∈ children p

/-- The nodes below `root`, with itself. -/
def Descends (children : α → List α) (root x : α) : Prop :=
  Relation.ReflTransGen (ChildOf children) root x

/-- No node is a child twice, `root` is no child, and every other of the `nodes` is a child of one
of them. -/
structure Rooted (nodes : List α) (children : α → List α) (root : α) : Prop where
  nodup : (nodes.flatMap children).Nodup
  distinct : nodes.Nodup
  inner : ∀ p, children p ≠ [] → p ∈ nodes
  closed : ∀ x ∈ nodes.flatMap children, x ∈ nodes
  root_mem : root ∈ nodes
  root_free : root ∉ nodes.flatMap children
  parented : ∀ x ∈ nodes, x ≠ root → x ∈ nodes.flatMap children

/-- The nodes that an exploration has seen and those on its fringe. -/
structure Frontier (children : α → List α) (root : α) (seen fringe : List α) : Prop where
  nodup : (seen ++ fringe).Nodup
  parent : ∀ x ∈ seen ++ fringe, x = root ∨ ∃ p ∈ seen, x ∈ children p
  descends : ∀ x ∈ seen ++ fringe, Descends children root x
  closed : ∀ p ∈ seen, ∀ x ∈ children p, x ∈ seen ++ fringe
  root_mem : root ∈ seen ++ fringe

namespace Rooted

variable {nodes : List α} {children : α → List α} {root : α}

theorem mem_flatMap (h : Rooted nodes children root) {p x : α} (hx : x ∈ children p) :
    x ∈ nodes.flatMap children :=
  List.mem_flatMap.mpr ⟨p, h.inner p (List.ne_nil_of_mem hx), hx⟩

theorem children_nodup (h : Rooted nodes children root) (p : α) : (children p).Nodup := by
  by_cases hp : children p = []
  · exact hp ▸ List.nodup_nil
  · exact (List.nodup_flatMap.mp h.nodup).1 p (h.inner p hp)

/-- A node has one parent at most. -/
theorem parent_unique (h : Rooted nodes children root) {p q x : α} (hp : x ∈ children p)
    (hq : x ∈ children q) : p = q := by
  have hpair := (List.nodup_flatMap.mp h.nodup).2
  by_contra hne
  have : Std.Symm (Function.onFun List.Disjoint children) := ⟨fun _ _ hab => hab.symm⟩
  exact hpair.forall (h.inner p (List.ne_nil_of_mem hp)) (h.inner q (List.ne_nil_of_mem hq)) hne
    hp hq

/-- The root and the children are the nodes. -/
theorem perm (h : Rooted nodes children root) : (root :: nodes.flatMap children).Perm nodes := by
  refine (List.perm_ext_iff_of_nodup (List.nodup_cons.mpr ⟨h.root_free, h.nodup⟩)
    h.distinct).mpr fun x => ?_
  rw [List.mem_cons]
  constructor
  · rintro (rfl | hx)
    · exact h.root_mem
    · exact h.closed x hx
  · exact fun hx => or_iff_not_imp_left.mpr (h.parented x hx)

/-- No node below the root is on a cycle. -/
theorem acyclic (h : Rooted nodes children root) {x : α} (hx : Descends children root x) :
    ¬ Relation.TransGen (ChildOf children) x x := by
  induction hx with
  | refl =>
    intro hcycle
    obtain ⟨p, -, hp⟩ := Relation.TransGen.tail'_iff.mp hcycle
    exact h.root_free (h.mem_flatMap hp)
  | @tail p x _ hchild ih =>
    intro hcycle
    obtain ⟨q, hq, hx⟩ := Relation.TransGen.tail'_iff.mp hcycle
    obtain rfl := h.parent_unique hchild hx
    exact ih (.head' hchild hq)

end Rooted

namespace Frontier

variable {nodes : List α} {children : α → List α} {root g : α} {seen fringe : List α}

theorem init (children : α → List α) (root : α) : Frontier children root [] [root] where
  nodup := List.nodup_singleton root
  parent _ hx := .inl (List.mem_singleton.mp hx)
  descends _ hx := List.mem_singleton.mp hx ▸ .refl
  closed _ hp := absurd hp List.not_mem_nil
  root_mem := List.mem_singleton_self root

/-- The head of the fringe is new. -/
theorem fresh (h : Frontier children root seen (g :: fringe)) : g ∉ seen := fun hg =>
  (List.disjoint_of_nodup_append h.nodup) hg List.mem_cons_self

theorem mem_step {x : α} : x ∈ (seen ++ [g]) ++ (fringe ++ children g) ↔
    x ∈ seen ++ g :: fringe ∨ x ∈ children g := by
  simp only [List.mem_append, List.mem_cons, List.not_mem_nil, or_false]
  tauto

/-- The head of the fringe is taken, and its children wait behind the others. -/
theorem step (hroot : Rooted nodes children root)
    (h : Frontier children root seen (g :: fringe)) :
    Frontier children root (seen ++ [g]) (fringe ++ children g) where
  nodup := by
    rw [List.append_assoc, List.singleton_append, ← List.cons_append, ← List.append_assoc]
    refine List.nodup_append'.mpr ⟨h.nodup, hroot.children_nodup g, fun x hold hnew => ?_⟩
    -- the parent of a child of `g` is `g`, which has not been seen
    obtain rfl | ⟨p, hp, hx⟩ := h.parent x hold
    · exact hroot.root_free (hroot.mem_flatMap hnew)
    · exact h.fresh (hroot.parent_unique hx hnew ▸ hp)
  parent x hx := by
    obtain hold | hnew := mem_step.mp hx
    · exact (h.parent x hold).imp id fun ⟨p, hp, hx⟩ => ⟨p, List.mem_append_left _ hp, hx⟩
    · exact .inr ⟨g, List.mem_append_right _ (List.mem_singleton_self g), hnew⟩
  descends x hx := by
    obtain hold | hnew := mem_step.mp hx
    · exact h.descends x hold
    · exact (h.descends g (List.mem_append_right _ List.mem_cons_self)).tail hnew
  closed p hp x hx := by
    obtain hp | hp := List.mem_append.mp hp
    · exact mem_step.mpr (.inl (h.closed p hp x hx))
    · exact mem_step.mpr (.inr (List.mem_singleton.mp hp ▸ hx))
  root_mem := mem_step.mpr (.inl h.root_mem)

/-- The nodes that have been seen are among the nodes. -/
theorem length_le (hroot : Rooted nodes children root)
    (h : Frontier children root seen fringe) : (seen ++ fringe).length ≤ nodes.length := by
  refine (h.nodup.subperm fun x hx => ?_).length_le
  obtain rfl | ⟨p, hp, hx⟩ := h.parent x hx
  · exact hroot.root_mem
  · exact hroot.closed x (hroot.mem_flatMap hx)

/-- When the fringe is empty, the nodes below the root have been seen, and no others. -/
theorem done (h : Frontier children root seen []) (x : α) :
    x ∈ seen ↔ Descends children root x := by
  refine ⟨fun hx => h.descends x (List.mem_append_left _ hx), fun hx => ?_⟩
  induction hx with
  | refl => simpa using h.root_mem
  | tail _ hchild ih => simpa using h.closed _ ih _ hchild

end Frontier

/-- From a node that is not below the root, its parents lead to a cycle. -/
theorem Rooted.cycle [DecidableEq α] {nodes : List α} {children : α → List α} {root x : α}
    (h : Rooted nodes children root) (hx : x ∈ nodes) (hdesc : ¬ Descends children root x) :
    ∃ y, Descends children y x ∧ Relation.TransGen (ChildOf children) y y := by
  -- the nodes that are not below the root, each with a parent among them
  let Stray := {y // y ∈ nodes ∧ ¬ Descends children root y}
  have : Finite Stray := (nodes.finite_toSet.subset fun _ hy => hy.1).to_subtype
  have hparent (y : Stray) : ∃ p : Stray, y.1 ∈ children p.1 := by
    obtain ⟨p, hp, hy⟩ := List.mem_flatMap.mp
      (h.parented y.1 y.2.1 fun heq => y.2.2 (by rw [heq]; exact .refl))
    exact ⟨⟨p, hp, fun hb => y.2.2 (hb.tail hy)⟩, hy⟩
  choose parent hparent using hparent
  have hup (n : ℕ) (y : Stray) : Descends children (parent^[n] y).1 y.1 := by
    induction n with
    | zero => exact .refl
    | succ n ih =>
      rw [Function.iterate_succ_apply']
      exact .head (hparent _) ih
  have hcycle (m k : ℕ) (heq : parent^[m] ⟨x, hx, hdesc⟩ = parent^[k + 1 + m] ⟨x, hx, hdesc⟩) :
      ∃ y, Descends children y x ∧ Relation.TransGen (ChildOf children) y y := by
    refine ⟨_, hup m ⟨x, hx, hdesc⟩, ?_⟩
    have hloop := hparent (parent^[k] (parent^[m] ⟨x, hx, hdesc⟩))
    rw [← Function.iterate_succ_apply' parent, ← Function.iterate_add_apply, ← heq] at hloop
    exact .head' hloop (hup k _)
  obtain ⟨m, n, hne, heq⟩ := Finite.exists_ne_map_eq_of_infinite
    fun n : ℕ => parent^[n] (⟨x, hx, hdesc⟩ : Stray)
  obtain hlt | hlt := hne.lt_or_gt
  · exact hcycle m (n - m - 1) (by rwa [show n - m - 1 + 1 + m = n by omega])
  · exact hcycle n (m - n - 1) (by rw [show m - n - 1 + 1 + n = m by omega]; exact heq.symm)

end Doppelganger.Lib
