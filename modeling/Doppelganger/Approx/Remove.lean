import Doppelganger.Approx.Update

/-! Deletion from a 2-3 tree: `tree23_delete` removes the item with the key, or nothing, and
`tree23_delete_min` the first item. -/

namespace Doppelganger.Approx

open Lib

section

variable {t : Tree} {p : LeafNode} {stack : List Frame} {root : Node} {h : Nat} {k q min : Address}
  {sep : Option Address} {items pre mid post xs ys : List ApproxRegion} {x y a b c : ApproxRegion}

theorem minKey_mid (hpre : pre ≠ []) (xs ys : List ApproxRegion) :
    minKey (pre ++ xs) = minKey (pre ++ ys) := by
  rw [minKey_append hpre, minKey_append hpre]

/-- The item `x` at its place is stored no longer. -/
theorem Stores.removed (hT : Stores t (xs ++ x :: ys)) (hrep : Rep h root (xs ++ ys))
    (hmin : min = minKey (xs ++ ys)) : Stores ⟨root, t.n - 1, min⟩ (xs ++ ys) := by
  refine Stores.of_rep hrep hT.ascending.remove ?_ hmin
  rw [hT.n]
  simp

/-- In a tree of more than two items, a leaf node with two items is not the root. -/
theorem Ctx.not_root (hc : Ctx 0 stack pre post sep) (hT : Stores t (pre ++ (mid ++ post)))
    (hn : 2 < t.n) (hmid : mid.length = 2) : stack ≠ [] := by
  rintro rfl
  cases hc
  have := hT.n
  simp at this
  omega

theorem deleteMiddle_eq (hc : Ctx 0 stack pre post sep) (hp : Rep 0 (.leaf p) (a :: b :: ys))
    (hs : Starts sep (a :: b :: ys)) (hT : Stores t (pre ++ ((a :: b :: ys) ++ post)))
    (hn : 2 < t.n) :
    ∃ t', deleteMiddle p stack t = some t' ∧ Stores t' ((pre ++ [a]) ++ (ys ++ post)) := by
  have hmin : t.minItem = minKey ((pre ++ [a]) ++ (ys ++ post)) := by
    rw [hT.minItem]
    cases pre <;> simp
  have hT' : Stores t ((pre ++ [a]) ++ b :: (ys ++ post)) := by simpa using hT
  rcases hp.leaf_cases with ⟨a', b', rfl, he, ha, hb⟩ | ⟨a', b', c, rfl, he, ha, hb, hcc⟩
  · obtain ⟨rfl, rfl, rfl⟩ : a = a' ∧ b = b' ∧ ys = [] := by simpa using he
    obtain ⟨root, H, hroot, hrep⟩ :=
      hc.mergeLeaf ⟨b.addr, 0, some a, some b, none⟩ rfl rfl ha hs (hc.not_root hT hn rfl)
    refine ⟨_, by simp [deleteMiddle, hroot]; rfl, hT'.removed (by simpa using hrep) hmin⟩
  · obtain ⟨rfl, rfl, rfl⟩ : a = a' ∧ b = b' ∧ ys = [c] := by simpa using he
    obtain ⟨H, hrep⟩ := hc.plug (Rep.leaf2 ha hcc) hs
    exact ⟨_, by simp [deleteMiddle, hcc]; rfl, hT'.removed (by simpa using hrep) hmin⟩

theorem deleteLeft_eq (hc : Ctx 0 stack pre post sep) (hp : Rep 0 (.leaf p) (a :: ys))
    (hT : Stores t (pre ++ ((a :: ys) ++ post))) (hn : 2 < t.n) :
    ∃ t', deleteLeft p stack t = some t' ∧ Stores t' (pre ++ (ys ++ post)) := by
  obtain ⟨b, hpb, hb1, hys⟩ : ∃ b, p.middle = some b ∧ p.keyItem1 = b.addr ∧ ys.head? = some b := by
    rcases hp.leaf_cases with ⟨a', b, rfl, he, -⟩ | ⟨a', b, c, rfl, he, -⟩ <;>
      exact ⟨b, rfl, rfl, by simp at he; simp [he.2]⟩
  obtain ⟨zs, rfl⟩ : ∃ zs, ys = b :: zs := ⟨ys.tail, by cases ys <;> simp_all⟩
  have hT' : Stores t (pre ++ a :: (b :: zs ++ post)) := by simpa using hT
  -- A key above the leaf node, or `min_item`, now is the key of `b`.
  obtain ⟨stack', sep', hlen, hmoved, hc', hs', hmin⟩ : ∃ stack' sep',
      stack'.length = stack.length ∧ (setMinKey b.addr stack).getD stack = stack' ∧
      Ctx 0 stack' pre post sep' ∧ (∀ l, Starts sep' (b :: l)) ∧
      (if (setMinKey b.addr stack).isSome then t.minItem else p.keyItem1) =
        minKey (pre ++ (b :: zs ++ post)) := by
    rcases hc.setMinKey b.addr with ⟨rfl, hnone⟩ | ⟨stack', hsome, hlen, hc'⟩
    · obtain rfl := hc.pre_nil.mpr rfl
      exact ⟨stack, none, rfl, by simp [hnone], hc, by simp [Starts], by simp [hnone, hb1]⟩
    · have hpre : pre ≠ [] := fun h => by simpa using hc'.pre_nil.mp h
      refine ⟨stack', _, hlen, by simp [hsome], hc', by simp [Starts], ?_⟩
      rw [hsome, Option.isSome_some, if_pos rfl, hT'.minItem]
      exact minKey_mid hpre _ _
  have hroot : (b :: zs).length = 1 → stack' ≠ [] := by
    intro hz hnil
    have := hc.not_root hT hn (by simpa using hz)
    rw [hnil] at hlen
    exact this (List.length_eq_zero_iff.mp hlen.symm)
  rw [deleteLeft, hpb, Option.bind_some]
  simp only [hmoved, hmin]
  rcases hp.leaf_cases with ⟨a', b', rfl, he, ha, hb⟩ | ⟨a', b', c, rfl, he, ha, hb, hcc⟩
  · obtain ⟨rfl, rfl, rfl⟩ : a = a' ∧ b = b' ∧ zs = [] := by simpa using he
    obtain ⟨root, H, hmerge, hrep⟩ :=
      hc'.mergeLeaf ⟨b.addr, 0, some a, some b, none⟩ rfl rfl hb (hs' []) (hroot rfl)
    exact ⟨_, by simp [hmerge]; rfl, hT'.removed (by simpa using hrep) rfl⟩
  · obtain ⟨rfl, rfl, rfl⟩ : a = a' ∧ b = b' ∧ zs = [c] := by simpa using he
    obtain ⟨H, hrep⟩ := hc'.plug (Rep.leaf2 hb hcc) (hs' [c])
    exact ⟨_, by simp [hcc]; rfl, hT'.removed (by simpa using hrep) rfl⟩

/-- A deletion from a tree of at most two items. -/
theorem deleteSmall_eq (hT : Stores t items) (hroot : t.root = .leaf p) (hn : t.n ≤ 2)
    (q : Address) :
    ∃ r t', deleteSmall q p t = some (r, t') ∧
      ((r = none ∧ t' = t ∧ ∀ x ∈ items, x.addr ≠ q) ∨
        ∃ xs x ys, r = some x ∧ items = xs ++ x :: ys ∧ x.addr = q ∧ Stores t' (xs ++ ys)) := by
  have hlen := hT.n
  have hmin := hT.minItem
  rcases hT.small hn with ⟨rfl, hr⟩ | ⟨a, rfl, hr⟩ | ⟨a, b, rfl, hr⟩ <;>
    obtain rfl := Node.leaf.inj (hroot.symm.trans hr)
  · simp only [List.length_nil] at hlen
    exact ⟨none, t, by simp [deleteSmall, hlen], .inl ⟨rfl, rfl, by simp⟩⟩
  · simp only [List.length_singleton] at hlen
    simp only [deleteSmall, hlen, le_refl, if_true, if_neg Nat.one_ne_zero, Option.map_some,
      compare_eq]
    by_cases hq : q = a.addr
    · refine ⟨_, _, by rw [if_pos hq], .inr ⟨[], a, [], rfl, rfl, hq.symm, ?_⟩⟩
      exact ⟨List.Pairwise.nil, by simp, rfl, rfl, .inl ⟨rfl, rfl⟩⟩
    · exact ⟨_, _, by rw [if_neg hq], .inl ⟨rfl, rfl, by simpa using fun e => hq e.symm⟩⟩
  · have hab : key a < key b := by simpa [Ascending] using hT.ascending
    have hone : ∀ x : ApproxRegion, x.addr ≠ 0 → ∀ minItem, minItem = x.addr →
        Stores ⟨.leaf ⟨0, 0, some x, none, none⟩, 1, minItem⟩ [x] := fun x hx minItem hm =>
      ⟨List.pairwise_singleton _ _, by simpa using hx, rfl, hm, .inr (.inl ⟨x, rfl, rfl⟩)⟩
    have ha : a.addr ≠ 0 := hT.keys a (by simp)
    have hb : b.addr ≠ 0 := hT.keys b (by simp)
    have hmin : t.minItem = a.addr := hmin
    simp only [List.length_cons, List.length_nil, Nat.zero_add, Nat.reduceAdd] at hlen
    simp only [deleteSmall, hlen, Option.bind_some, Option.map_some, compare_nonneg, compare_eq,
      if_neg (show ¬(2 : Nat) ≤ 1 by decide)]
    by_cases hbq : key b ≤ q.toNat
    · rw [if_pos hbq]
      by_cases hq : q = b.addr
      · refine ⟨_, _, by rw [if_pos hq], .inr ⟨[a], b, [], rfl, rfl, hq.symm, ?_⟩⟩
        exact hone a ha _ hmin
      · refine ⟨_, _, by rw [if_neg hq], .inl ⟨rfl, rfl, ?_⟩⟩
        have haq : a.addr ≠ q := by
          rintro rfl
          exact absurd hab (not_lt_of_ge hbq)
        simpa using ⟨haq, fun e => hq e.symm⟩
    · rw [if_neg hbq]
      by_cases hq : q = a.addr
      · refine ⟨_, _, by rw [if_pos hq], .inr ⟨[], a, [b], rfl, rfl, hq.symm, ?_⟩⟩
        exact hone b hb _ rfl
      · refine ⟨_, _, by rw [if_neg hq], .inl ⟨rfl, rfl, ?_⟩⟩
        have hbq' : b.addr ≠ q := by
          rintro rfl
          exact hbq le_rfl
        simpa using ⟨fun e => hq e.symm, hbq'⟩

/-- A deletion removes the item with the key, or changes nothing when there is none. -/
theorem Stores.delete (hT : Stores t items) (q : Address) :
    ∃ r t', Approx.delete q t = some (r, t') ∧
      ((r = none ∧ t' = t ∧ ∀ x ∈ items, x.addr ≠ q) ∨
        ∃ xs x ys, r = some x ∧ items = xs ++ x :: ys ∧ x.addr = q ∧ Stores t' (xs ++ ys)) := by
  unfold Approx.delete
  by_cases hn : t.n ≤ 2
  · rw [if_pos hn]
    rcases hT.small hn with ⟨-, hr⟩ | ⟨a, -, hr⟩ | ⟨a, b, -, hr⟩ <;>
      · rw [hr]
        exact deleteSmall_eq hT hr hn q
  · rw [if_neg hn]
    obtain ⟨p, stack, pre, mid, post, sep, hd, rfl, hr⟩ := hT.search (by omega) q
    have hn' : 2 < t.n := by omega
    have hasc := hT.ascending
    have hmid := hasc.split.2.1.split.1
    -- When no item of the leaf node has the key, none of the tree has.
    have hmiss : (∀ x ∈ mid, x.addr ≠ q) → ∀ x ∈ pre ++ (mid ++ post), x.addr ≠ q :=
      fun hno x hx hk => hno x (hr.mem hasc hx hk) hk
    have hle : ∀ {x y : ApproxRegion}, key x < key y → y.addr.toNat ≤ q.toNat → x.addr ≠ q := by
      rintro x y hxy hyq rfl
      exact absurd hxy (not_lt_of_ge hyq)
    have hge : ∀ {x y : ApproxRegion}, ¬x.addr.toNat ≤ q.toNat → key x ≤ key y → y.addr ≠ q := by
      rintro x y hxq hxy rfl
      exact hxq hxy
    rw [hd, Option.bind_some]
    simp only [compare_nonneg, ne_eq, compare_eq]
    rcases hr.rep.leaf_cases with ⟨a, b, rfl, rfl, ha, hb⟩ | ⟨a, b, c, rfl, rfl, ha, hb, hc⟩
    · have hab : key a < key b := by simpa [Ascending] using hmid
      rw [if_neg (by simp)]
      by_cases hbq : b.addr.toNat ≤ q.toNat
      · rw [if_pos hbq]
        by_cases hq : q = b.addr
        · obtain ⟨t', ht', hT'⟩ := deleteMiddle_eq hr.ctx hr.rep hr.starts hT hn'
          refine ⟨some b, t', by simp [hq, ht'], .inr ⟨pre ++ [a], b, post, rfl, by simp, hq.symm,
            by simpa using hT'⟩⟩
        · refine ⟨none, t, by simp [hq], .inl ⟨rfl, rfl, hmiss ?_⟩⟩
          simpa using ⟨hle hab hbq, fun e => hq e.symm⟩
      · rw [if_neg hbq, Option.bind_some]
        by_cases hq : q = a.addr
        · obtain ⟨t', ht', hT'⟩ := deleteLeft_eq hr.ctx hr.rep hT hn'
          refine ⟨some a, t', by simp [hq, ht'], .inr ⟨pre, a, b :: post, rfl, by simp, hq.symm,
            by simpa using hT'⟩⟩
        · refine ⟨none, t, by simp [hq], .inl ⟨rfl, rfl, hmiss ?_⟩⟩
          simpa using ⟨fun e => hq e.symm, hge hbq le_rfl⟩
    · have habc : (key a < key b ∧ key a < key c) ∧ key b < key c := by
        simpa [Ascending] using hmid
      obtain ⟨⟨hab, hac⟩, hbc⟩ := habc
      by_cases hcq : c.addr.toNat ≤ q.toNat
      · rw [if_pos ⟨hc, hcq⟩]
        by_cases hq : q = c.addr
        · obtain ⟨H, hrep⟩ := hr.ctx.plug (Rep.leaf2 ha hb) fun k hk => hr.starts k hk
          have hT' : Stores t ((pre ++ [a, b]) ++ c :: post) := by simpa using hT
          have hmin : t.minItem = minKey ((pre ++ [a, b]) ++ post) := by
            rw [hT'.minItem]
            cases pre <;> simp
          exact ⟨some c, _, by rw [if_neg (not_not.mpr hq)], .inr ⟨pre ++ [a, b], c, post, rfl,
            by simp, hq.symm, hT'.removed (by simpa using hrep) hmin⟩⟩
        · refine ⟨none, t, by simp [hq], .inl ⟨rfl, rfl, hmiss ?_⟩⟩
          simpa using ⟨hle hac hcq, hle hbc hcq, fun e => hq e.symm⟩
      · rw [if_neg fun h => hcq h.2]
        by_cases hbq : b.addr.toNat ≤ q.toNat
        · rw [if_pos hbq]
          by_cases hq : q = b.addr
          · obtain ⟨t', ht', hT'⟩ := deleteMiddle_eq hr.ctx hr.rep hr.starts hT hn'
            refine ⟨some b, t', by simp [hq, ht'], .inr ⟨pre ++ [a], b, c :: post, rfl, by simp,
              hq.symm, by simpa using hT'⟩⟩
          · refine ⟨none, t, by simp [hq], .inl ⟨rfl, rfl, hmiss ?_⟩⟩
            simpa using ⟨hle hab hbq, fun e => hq e.symm, hge hcq le_rfl⟩
        · rw [if_neg hbq, Option.bind_some]
          by_cases hq : q = a.addr
          · obtain ⟨t', ht', hT'⟩ := deleteLeft_eq hr.ctx hr.rep hT hn'
            refine ⟨some a, t', by simp [hq, ht'], .inr ⟨pre, a, b :: c :: post, rfl, by simp,
              hq.symm, by simpa using hT'⟩⟩
          · refine ⟨none, t, by simp [hq], .inl ⟨rfl, rfl, hmiss ?_⟩⟩
            simpa using ⟨fun e => hq e.symm, hge hbq le_rfl, hge hcq le_rfl⟩

/-! ### The smallest item -/

/-- To the left of every key, the search of `delete` is that of `delete_min`. -/
theorem descendLeft_eq : ∀ {h : Nat} {p : Node} {stack : List Frame} {items : List ApproxRegion},
    Rep h p items → descendLeft p stack = descend 0 p stack
  | 0, p, stack, items, hp => by
    obtain ⟨q, rfl⟩ := hp.leaf_inv
    rw [descendLeft, descend]
  | h + 1, p, stack, items, hp => by
    obtain ⟨k1, k2, l, m, r, xs, ys, zs, rfl, rfl, hl, hm, rfl, hr⟩ := hp.internal_inv
    have h1 : ¬(minKey ys).toNat ≤ (0 : Address).toNat := not_le_of_gt (toNat_pos hm.minKey_ne)
    have h2 : ¬(k2 ≠ 0 ∧ k2.toNat ≤ (0 : Address).toNat) := fun h =>
      absurd h.2 (not_le_of_gt (toNat_pos h.1))
    rw [descendLeft, descend]
    simp only [compare_nonneg, if_neg h1, if_neg h2, descendLeft_eq hl]

/-- Where the search only turned left, the loop of `delete` is that of `delete_min`. -/
theorem Ctx.deleteMinUp_eq : ∀ {h : Nat} {stack : List Frame} {pre post : List ApproxRegion},
    Ctx h stack pre post none → ∀ k2 r x,
    Approx.deleteMinUp k2 r x stack = Approx.deleteUp k2 r x stack
  | _, _, _, _, .root, _, _, _ => rfl
  | _, _, _, _, .left hm hk hr hc, k2, r, x => by
    unfold Approx.deleteMinUp Approx.deleteUp
    simp only [hc.deleteMinUp_eq]

theorem Ctx.mergeMinLeaf_eq (hc : Ctx 0 stack pre post none) (a : ApproxRegion) :
    Approx.mergeMinLeaf p a stack = Approx.mergeLeaf p a stack := by
  cases hc with
  | root => rfl
  | left hm hk hr hc =>
    unfold Approx.mergeMinLeaf Approx.mergeLeaf
    simp only [hc.deleteMinUp_eq]

/-- `delete_min` removes the first item. -/
theorem Stores.deleteMin (hT : Stores t items) :
    ∃ t', Approx.deleteMin t = some (items.head?, t') ∧ Stores t' items.tail := by
  unfold Approx.deleteMin
  have hlen := hT.n
  by_cases hn : t.n ≤ 2
  · rw [if_pos hn]
    rcases hT.small hn with ⟨rfl, hr⟩ | ⟨a, rfl, hr⟩ | ⟨a, b, rfl, hr⟩
    · simp only [List.length_nil] at hlen
      exact ⟨t, by simp [hr, hlen], hT⟩
    · simp only [List.length_singleton] at hlen
      refine ⟨_, by simp [hr, hlen]; rfl, ?_⟩
      exact ⟨List.Pairwise.nil, by simp, rfl, rfl, .inl ⟨rfl, rfl⟩⟩
    · simp only [List.length_cons, List.length_nil, Nat.zero_add, Nat.reduceAdd] at hlen
      refine ⟨_, by simp [hr, hlen]; rfl, ?_⟩
      exact ⟨List.pairwise_singleton _ _, by simpa using hT.keys b (by simp), rfl, rfl,
        .inr (.inl ⟨b, rfl, rfl⟩)⟩
  · rw [if_neg hn]
    have hn' : 2 < t.n := by omega
    obtain ⟨h, hp⟩ := hT.large (by omega)
    obtain ⟨p, stack, pre, mid, post, sep, hd, rfl, hr⟩ := hT.search (by omega) 0
    have hsep : sep = none := by
      cases hsep : sep with
      | none => rfl
      | some k =>
        have hk : k ≠ 0 := hr.starts k hsep ▸ hr.rep.minKey_ne
        exact absurd (hr.below k hsep) (not_le_of_gt (toNat_pos hk))
    subst hsep
    obtain rfl := hr.ctx.pre_nil.mpr rfl
    obtain ⟨a, ha, hmina⟩ := hr.rep.leaf_left
    obtain ⟨a', ys, rfl⟩ := List.exists_cons_of_ne_nil hr.rep.ne_nil
    obtain ⟨t', ht', hT'⟩ := deleteLeft_eq hr.ctx hr.rep hT hn'
    have hnone : ∀ k, setMinKey k stack = none := fun k => by
      rcases hr.ctx.setMinKey k with ⟨-, h⟩ | ⟨stack', -, -, hc'⟩
      · exact h
      · simpa using hc'.pre_nil
    refine ⟨t', ?_, by simpa using hT'⟩
    rw [descendLeft_eq hp, hd, Option.bind_some]
    rcases hr.rep.leaf_cases with ⟨a, b, rfl, he, -⟩ | ⟨a, b, c, rfl, he, -, -, hc⟩
    · simp only [deleteLeft, hnone, Option.bind_some, Option.getD_none, Option.isSome_none] at ht'
      simpa [hr.ctx.mergeMinLeaf_eq, he] using ht'
    · simp only [deleteLeft, hnone, Option.bind_some, Option.getD_none, Option.isSome_none] at ht'
      simpa [hc, he] using ht'

end

end Doppelganger.Approx
