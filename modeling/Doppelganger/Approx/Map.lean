import Doppelganger.Approx.Remove
import Doppelganger.Lib.Run

/-! Runs of the 2-3 tree: every sequence of operations keeps its shape, and the tree is a sorted map
of regions. -/

namespace Doppelganger.Approx

open Lib

/-- The operations of `dict_info_t` on the tree. -/
inductive TreeOp
  | insert (item : ApproxRegion)
  | delete (keyItem : Address)
  | deleteMin
  | find (keyItem : Address)
deriving DecidableEq, Repr

namespace TreeOp

def step : TreeOp → Tree → Option Tree
  | insert item, t => (Approx.insert item t).map Prod.snd
  | delete keyItem, t => (Approx.delete keyItem t).map Prod.snd
  | deleteMin, t => (Approx.deleteMin t).map Prod.snd
  | find keyItem, t => (Approx.find keyItem t).map fun _ => t

def NonNull : TreeOp → Prop
  | insert item => item.addr ≠ 0
  | delete keyItem => keyItem ≠ 0
  | deleteMin => True
  | find keyItem => keyItem ≠ 0

instance : DecidablePred NonNull
  | insert item => inferInstanceAs (Decidable (item.addr ≠ 0))
  | delete keyItem => inferInstanceAs (Decidable (keyItem ≠ 0))
  | deleteMin => inferInstanceAs (Decidable True)
  | find keyItem => inferInstanceAs (Decidable (keyItem ≠ 0))

end TreeOp

def LeafNode.items (p : LeafNode) : List ApproxRegion :=
  p.left.toList ++ (p.middle.toList ++ p.right.toList)

/-- The items below a node, from left to right. -/
def Node.items : Node → List ApproxRegion
  | null => []
  | leaf p => p.items
  | internal _ _ l m r => l.items ++ (m.items ++ r.items)

def Tree.items (t : Tree) : List ApproxRegion := t.root.items

section

variable {t : Tree} {items : List ApproxRegion}

theorem Rep.items_eq : ∀ {h : Nat} {p : Node} {items : List ApproxRegion}, Rep h p items →
    p.items = items
  | 0, p, items, hp => by
    obtain ⟨q, rfl⟩ := hp.leaf_inv
    rcases hp.leaf_cases with ⟨a, b, rfl, rfl, -⟩ | ⟨a, b, c, rfl, rfl, -⟩ <;> rfl
  | h + 1, p, items, hp => by
    obtain ⟨k1, k2, l, m, r, xs, ys, zs, rfl, rfl, hl, hm, -, hr⟩ := hp.internal_inv
    have hzs : r.items = zs := by
      rcases hr with ⟨-, rfl, rfl⟩ | ⟨-, hr, -⟩
      · rfl
      · exact items_eq hr
    rw [Node.items, items_eq hl, items_eq hm, hzs]

theorem Stores.items_eq (hT : Stores t items) : t.items = items := by
  rcases hT.root with ⟨rfl, hr⟩ | ⟨a, rfl, hr⟩ | ⟨h, hp⟩
  · rw [Tree.items, hr]
    rfl
  · rw [Tree.items, hr]
    rfl
  · exact hp.items_eq

theorem Stores.distinct (hT : Stores t items) {x y : ApproxRegion} (hx : x ∈ items)
    (hy : y ∈ items) (hk : x.addr = y.addr) : x = y :=
  hT.ascending.inj hx hy (congrArg UInt64.toNat hk)

theorem Stores.self (hT : Stores t items) : Stores t t.items := by
  rwa [hT.items_eq]

/-- `Stores.insert`, in terms of membership. -/
theorem Stores.insert_mem (hT : Stores t t.items) {item : ApproxRegion} (hk : item.addr ≠ 0) :
    ∃ found t', Approx.insert item t = some (found, t') ∧ Stores t' t'.items ∧
      ((found.isNull = false ∧ t' = t ∧ ∃ x ∈ t.items, x.addr = item.addr) ∨
        (found.isNull = true ∧ (∀ x ∈ t.items, x.addr ≠ item.addr) ∧
          ∀ y, y ∈ t'.items ↔ y = item ∨ y ∈ t.items)) := by
  obtain ⟨found, t', hi, ⟨hf, rfl, hx⟩ | ⟨rfl, xs, ys, he, hT'⟩⟩ := hT.insert hk
  · exact ⟨found, t', hi, hT, .inl ⟨hf, rfl, hx⟩⟩
  · obtain ⟨hxs, hys⟩ := hT'.ascending.around
    refine ⟨.null, t', hi, hT'.self, .inr ⟨rfl, fun x hx hxk => ?_, fun y => ?_⟩⟩
    · have hxk : key x = key item := congrArg UInt64.toNat hxk
      rcases List.mem_append.mp (he ▸ hx) with hx | hx
      · exact absurd hxk (ne_of_lt (hxs x hx))
      · exact absurd hxk (ne_of_gt (hys x hx))
    · rw [hT'.items_eq, he]
      simp only [List.mem_append, List.mem_cons]
      tauto

/-- `Stores.delete`, in terms of membership. -/
theorem Stores.delete_mem (hT : Stores t t.items) (q : Address) :
    ∃ r t', Approx.delete q t = some (r, t') ∧ Stores t' t'.items ∧
      (∀ x, r = some x ↔ x ∈ t.items ∧ x.addr = q) ∧
      (∀ y, y ∈ t'.items ↔ y ∈ t.items ∧ y.addr ≠ q) ∧ (r = none → t' = t) := by
  obtain ⟨r, t', hd, ⟨rfl, rfl, hno⟩ | ⟨xs, x, ys, rfl, he, hx, hT'⟩⟩ := hT.delete q
  · refine ⟨none, t', hd, hT, fun x => ?_, fun y => ⟨fun hy => ⟨hy, hno y hy⟩, fun h => h.1⟩,
      fun _ => rfl⟩
    exact ⟨fun h => by simp at h, fun h => absurd h.2 (hno x h.1)⟩
  · have hxm : x ∈ t.items := by simp [he]
    refine ⟨some x, t', hd, hT'.self, fun y => ⟨?_, ?_⟩, fun y => ?_, by simp⟩
    · intro h
      obtain rfl := Option.some.inj h
      exact ⟨hxm, hx⟩
    · rintro ⟨hy, hyq⟩
      rw [hT.distinct hxm hy (hx.trans hyq.symm)]
    · have hasc : Ascending key (xs ++ x :: ys) := he ▸ hT.ascending
      rw [hT'.items_eq, hasc.mem_remove, he, ← hx]
      exact and_congr_right fun _ => not_congr UInt64.toNat_inj

theorem step_stores (op : TreeOp) (t : Tree) (hT : Stores t t.items) (hop : op.NonNull) :
    ∃ t', op.step t = some t' ∧ Stores t' t'.items := by
  cases op with
  | insert item =>
    obtain ⟨found, t', hi, hT', -⟩ := hT.insert_mem hop
    exact ⟨t', by simp [TreeOp.step, hi], hT'⟩
  | delete keyItem =>
    obtain ⟨r, t', hd, hT', -⟩ := hT.delete_mem keyItem
    exact ⟨t', by simp [TreeOp.step, hd], hT'⟩
  | deleteMin =>
    obtain ⟨t', hd, hT'⟩ := hT.deleteMin
    exact ⟨t', by simp [TreeOp.step, hd], hT'.self⟩
  | find keyItem =>
    obtain ⟨r, hf, -⟩ := hT.find keyItem
    exact ⟨t, by simp [TreeOp.step, hf], hT⟩

theorem run_stores (ops : List TreeOp) (hops : ∀ op ∈ ops, op.NonNull) :
    ∃ t, run TreeOp.step ops alloc = some t ∧ Stores t t.items :=
  run_keeps step_stores ops alloc_stores (along_of_mem hops alloc)

/-- After any operations with non-null keys the tree is a 2-3 tree of its items: they ascend, the
count and the smallest key are right, and no search overflows the stack. -/
theorem tree_wellFormed (ops : List TreeOp) (hops : ∀ op ∈ ops, op.NonNull) :
    ∃ t, run TreeOp.step ops alloc = some t ∧ Stores t t.items ∧
      ∀ h, Rep h t.root t.items → h < stackSize := by
  obtain ⟨t, hrun, hT⟩ := run_stores ops hops
  exact ⟨t, hrun, hT, fun h hp => lt_trans (hT.height hp) (by decide)⟩

/-- Operations on four regions, among them a split of the root, a merge and a failed insertion. -/
def sampleOps : List TreeOp :=
  let region (addr : Address) : ApproxRegion := ⟨addr, 64, addr, addr + 64, .approxFp⟩
  [.insert (region 256), .insert (region 64), .insert (region 512), .insert (region 128),
    .insert (region 64), .delete 512, .find 200, .deleteMin]

theorem tree_wellFormed_sample :
    ∃ t, run TreeOp.step sampleOps alloc = some t ∧ Stores t t.items ∧
      ∀ h, Rep h t.root t.items → h < stackSize :=
  tree_wellFormed sampleOps (by decide)

/-- What the operations answer and do to the items. -/
structure SortedMap (t : Tree) : Prop where
  distinct : ∀ x ∈ t.items, ∀ y ∈ t.items, x.addr = y.addr → x = y
  find : ∀ q, ∃ r, Approx.find q t = some r ∧
    (∀ x, r = some x → x ∈ t.items ∧ x.addr ≤ q ∧ ∀ y ∈ t.items, y.addr ≤ q → y.addr ≤ x.addr) ∧
    (r = none ↔ ∀ y ∈ t.items, q < y.addr)
  insert : ∀ item : ApproxRegion, item.addr ≠ 0 → ∃ found t',
    Approx.insert item t = some (found, t') ∧
    (found.isNull = false ↔ ∃ x ∈ t.items, x.addr = item.addr) ∧
    (found.isNull = false → t' = t) ∧
    (found.isNull = true → ∀ y, y ∈ t'.items ↔ y = item ∨ y ∈ t.items)
  delete : ∀ q, ∃ r t', Approx.delete q t = some (r, t') ∧
    (∀ x, r = some x ↔ x ∈ t.items ∧ x.addr = q) ∧
    (∀ y, y ∈ t'.items ↔ y ∈ t.items ∧ y.addr ≠ q) ∧ (r = none → t' = t)
  deleteMin : ∃ r t', Approx.deleteMin t = some (r, t') ∧ (r = none ↔ t.items = []) ∧
    (∀ x, r = some x → x ∈ t.items ∧ ∀ y ∈ t.items, x.addr ≤ y.addr) ∧
    ∀ y, y ∈ t'.items ↔ y ∈ t.items ∧ r ≠ some y

/-- The tree is a sorted map. -/
theorem Stores.sortedMap (hT : Stores t t.items) : SortedMap t := by
  refine ⟨fun x hx y hy => hT.distinct hx hy, fun q => ?_, fun item hk => ?_, fun q => ?_, ?_⟩
  · obtain ⟨r, hf, hr⟩ := hT.find q
    refine ⟨r, hf, hr.found, hr.missing, fun hall => ?_⟩
    cases r with
    | none => rfl
    | some x =>
      obtain ⟨hx, hxq, -⟩ := hr.found x rfl
      exact absurd hxq (not_le_of_gt (hall x hx))
  · obtain ⟨found, t', hi, -, ⟨hf, ht, hx⟩ | ⟨hf, hno, hmem⟩⟩ := hT.insert_mem hk
    · exact ⟨found, t', hi, by simp [hf, hx], fun _ => ht, by simp [hf]⟩
    · exact ⟨found, t', hi, by simpa [hf] using hno, by simp [hf], fun _ => hmem⟩
  · obtain ⟨r, t', hd, -, hr⟩ := hT.delete_mem q
    exact ⟨r, t', hd, hr⟩
  · obtain ⟨t', hd, hT'⟩ := hT.deleteMin
    refine ⟨_, t', hd, by simp, ?_, ?_⟩
    · intro x hx
      obtain ⟨ys, he⟩ : ∃ ys, t.items = x :: ys := ⟨t.items.tail, by cases h : t.items <;> simp_all⟩
      have hasc : Ascending key (x :: ys) := he ▸ hT.ascending
      rw [he]
      exact ⟨by simp, hasc.head_le⟩
    · intro y
      rw [hT'.items_eq]
      cases he : t.items with
      | nil => simp
      | cons x ys =>
        have hasc : Ascending key ([] ++ x :: ys) := he ▸ hT.ascending
        simp only [List.tail_cons, List.head?_cons, List.mem_cons, ne_eq, Option.some.injEq]
        constructor
        · intro hy
          refine ⟨.inr hy, ?_⟩
          rintro rfl
          exact absurd (hasc.around.2 x hy) (lt_irrefl _)
        · rintro ⟨rfl | hy, hne⟩
          · exact absurd rfl hne
          · exact hy

/-- In every run the tree behaves as a sorted map of regions. -/
theorem tree_sortedMap (ops : List TreeOp) (hops : ∀ op ∈ ops, op.NonNull) :
    ∃ t, run TreeOp.step ops alloc = some t ∧ SortedMap t := by
  obtain ⟨t, hrun, hT⟩ := run_stores ops hops
  exact ⟨t, hrun, hT.sortedMap⟩

theorem tree_sortedMap_sample :
    ∃ t, run TreeOp.step sampleOps alloc = some t ∧ SortedMap t :=
  tree_sortedMap sampleOps (by decide)

end

end Doppelganger.Approx
