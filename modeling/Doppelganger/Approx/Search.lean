import Doppelganger.Approx.Shape
import Doppelganger.Lib.Ascending

/-! The searches of `tree23.cpp` in a tree with ascending items: where `descend` ends, and that
`find` returns the floor of the key. -/

namespace Doppelganger.Approx

open Lib

/-- The key of an item, as a number. -/
abbrev key (x : ApproxRegion) : Nat := x.addr.toNat

section

variable {h : Nat} {p l m r x : Node} {k k1 k2 q : Address} {sep : Option Address}
  {items mid pre post xs ys zs : List ApproxRegion} {stack : List Frame} {a b c : ApproxRegion}

theorem compare_nonneg : 0 ≤ compare k q ↔ q.toNat ≤ k.toNat := by
  unfold compare
  split_ifs with h1 h2
  · simp [h1]
  · have : q.toNat < k.toNat := h2
    omega
  · have : ¬q.toNat < k.toNat := h2
    have : k.toNat ≠ q.toNat := fun e => h1 (UInt64.toNat_inj.mp e)
    omega

theorem compare_eq : compare k q = 0 ↔ k = q := by
  unfold compare
  split_ifs with h1 h2 <;> simp [h1]

theorem compare_pos : 0 < compare k q ↔ q.toNat < k.toNat := by
  have h1 := @compare_nonneg k q
  have h2 := @compare_eq k q
  rw [← UInt64.toNat_inj] at h2
  omega

theorem compare_neg : compare k q < 0 ↔ k.toNat < q.toNat := by
  have := @compare_nonneg k q
  omega

theorem compare_nonpos : compare k q ≤ 0 ↔ k.toNat ≤ q.toNat := by
  have := @compare_pos k q
  omega

theorem toNat_pos (hk : k ≠ 0) : 0 < k.toNat := by
  rcases Nat.eq_zero_or_pos k.toNat with h0 | h0
  · exact absurd (UInt64.toNat_inj.mp h0) hk
  · exact h0

/-- The first key is the smallest. -/
theorem minKey_le (hs : Ascending key xs) {y : ApproxRegion} (hy : y ∈ xs) :
    (minKey xs).toNat ≤ key y := by
  cases xs with
  | nil => simp at hy
  | cons a xs => exact hs.head_le y hy

theorem Ctx.pre_nil (hc : Ctx h stack pre post sep) : pre = [] ↔ sep = none := by
  induction hc with
  | root => simp
  | left _ _ _ _ ih => exact ih
  | middle hl _ _ _ _ => simp [hl.ne_nil]
  | right hl _ _ _ _ _ => simp [hl.ne_nil]

/-- The search for `q` ended at leaf node `p`: the items after it are above `q`, and so is none of
the keys that the search passed on its right. -/
structure Reached (q : Address) (p : LeafNode) (stack : List Frame)
    (pre mid post : List ApproxRegion) (sep : Option Address) : Prop where
  rep : Rep 0 (.leaf p) mid
  ctx : Ctx 0 stack pre post sep
  starts : Starts sep mid
  above : ∀ y ∈ post, q.toNat < key y
  below : ∀ k, sep = some k → k.toNat ≤ q.toNat

/-- The search ends at the leaf node next to the key, with room left on the stack. -/
theorem descend_reached (q : Address) : ∀ {h : Nat} {p : Node} {stack : List Frame}
    {pre mid post : List ApproxRegion} {sep : Option Address},
    Rep h p mid → Ctx h stack pre post sep → Starts sep mid →
    Ascending key (pre ++ (mid ++ post)) → (∀ y ∈ post, q.toNat < key y) →
    (∀ k, sep = some k → k.toNat ≤ q.toNat) → h + stack.length ≤ stackSize →
    ∃ p' stack' pre' mid' post' sep', descend q p stack = some (p', stack') ∧
      pre' ++ (mid' ++ post') = pre ++ (mid ++ post) ∧ Reached q p' stack' pre' mid' post' sep'
  | 0, p, stack, pre, mid, post, sep, hp, hc, hs, _, habove, hbelow, _ => by
    obtain ⟨p', rfl⟩ := hp.leaf_inv
    exact ⟨p', stack, pre, mid, post, sep, by rw [descend], rfl, hp, hc, hs, habove, hbelow⟩
  | h + 1, p, stack, pre, mid, post, sep, hp, hc, hs, hasc, habove, hbelow, hroom => by
    obtain ⟨k1, k2, l, m, r, xs, ys, zs, rfl, rfl, hl, hm, hk, hr⟩ := hp.internal_inv
    have hxs := hs.of_append hl.ne_nil
    have hmid := hasc.split.2.1.split.1
    have hys := hmid.split.2.1.split.1
    have hzs := hmid.split.2.1.split.2.1
    rw [descend, if_pos (by omega)]
    simp only [compare_nonneg]
    by_cases h2 : k2 ≠ 0 ∧ k2.toNat ≤ q.toNat
    · rcases hr with ⟨hk2, -, -⟩ | ⟨-, hr, hkz⟩
      · exact absurd hk2 h2.1
      rw [if_pos h2]
      obtain ⟨p', stack', pre', mid', post', sep', hd, he, hreach⟩ :=
        descend_reached q hr (.right hl hm hk hxs hc) (fun k hk => hkz.trans (Option.some.inj hk))
          (by simpa using hasc) habove (fun k hk => Option.some.inj hk ▸ h2.2)
          (by simp; omega)
      exact ⟨p', stack', pre', mid', post', sep', hd, by simpa using he, hreach⟩
    · have hzabove : ∀ y ∈ zs, q.toNat < key y := by
        intro y hy
        rcases hr with ⟨-, -, rfl⟩ | ⟨hk2, -, hkz⟩
        · simp at hy
        · have := minKey_le hzs hy
          rw [hkz] at this
          have : ¬k2.toNat ≤ q.toNat := fun hle => h2 ⟨hk2, hle⟩
          omega
      have hzpost : ∀ y ∈ zs ++ post, q.toNat < key y := fun y hy =>
        (List.mem_append.mp hy).elim (hzabove y) (habove y)
      rw [if_neg h2]
      by_cases h1 : k1.toNat ≤ q.toNat
      · rw [if_pos h1]
        obtain ⟨p', stack', pre', mid', post', sep', hd, he, hreach⟩ :=
          descend_reached q hm (.middle hl hr hxs hc) (fun k hk' => hk.trans (Option.some.inj hk'))
            (by simpa using hasc) hzpost (fun k hk => Option.some.inj hk ▸ h1) (by simp; omega)
        exact ⟨p', stack', pre', mid', post', sep', hd, by simpa using he, hreach⟩
      · have hyabove : ∀ y ∈ ys, q.toNat < key y := by
          intro y hy
          have := minKey_le hys hy
          rw [hk] at this
          omega
        rw [if_neg h1]
        obtain ⟨p', stack', pre', mid', post', sep', hd, he, hreach⟩ :=
          descend_reached q hl (.left hm hk hr hc) hxs (by simpa using hasc)
            (fun y hy => (List.mem_append.mp hy).elim (hyabove y) (hzpost y)) hbelow
            (by simp; omega)
        exact ⟨p', stack', pre', mid', post', sep', hd, by simpa using he, hreach⟩

theorem findLeaf_eq : ∀ {p : Node} {stack stack' : List Frame} {p' : LeafNode},
    descend q p stack = some (p', stack') → findLeaf q p = some p'
  | .null, _, _, _, hd => by simp [descend] at hd
  | .leaf p, _, _, _, hd => by
    simp only [descend, Option.some.injEq, Prod.mk.injEq] at hd
    rw [findLeaf, hd.1]
  | .internal k1 k2 l m r, stack, stack', p', hd => by
    rw [descend] at hd
    rw [findLeaf]
    split_ifs at hd ⊢
    · exact findLeaf_eq hd
    · exact findLeaf_eq hd
    · exact findLeaf_eq hd

end

/-- The tree stores the items: they ascend and have non-null keys, the count and the smallest key
are right, and the root is that of a 2-3 tree, or a leaf node with fewer than two items. -/
structure Stores (t : Tree) (items : List ApproxRegion) : Prop where
  ascending : Ascending key items
  keys : ∀ x ∈ items, x.addr ≠ 0
  n : t.n = items.length
  minItem : t.minItem = minKey items
  root : (items = [] ∧ t.root = .leaf ⟨0, 0, none, none, none⟩) ∨
    (∃ a, items = [a] ∧ t.root = .leaf ⟨0, 0, some a, none, none⟩) ∨ ∃ h, Rep h t.root items

namespace Stores

variable {t : Tree} {items : List ApproxRegion}

theorem large (hT : Stores t items) (hn : 1 < t.n) : ∃ h, Rep h t.root items := by
  rcases hT.root with ⟨rfl, -⟩ | ⟨a, rfl, -⟩ | hrep
  · have := hT.n
    simp at this
    omega
  · have := hT.n
    simp at this
    omega
  · exact hrep

/-- There are fewer than `2 ^ 64` items, so the tree is at most 63 nodes high. -/
theorem height (hT : Stores t items) {h : Nat} (hp : Rep h t.root items) : h < 64 := by
  have hlen : items.length ≤ 2 ^ 64 - 0 :=
    hT.ascending.length_le fun x _ => ⟨Nat.zero_le _, x.addr.toNat_lt⟩
  have hle := le_trans hp.length_le hlen
  rw [Nat.sub_zero, Nat.pow_le_pow_iff_right (by omega)] at hle
  omega

/-- A search from the root of a large tree ends at a leaf node. -/
theorem search (hT : Stores t items) (hn : 1 < t.n) (q : Address) :
    ∃ p stack pre mid post sep, descend q t.root [] = some (p, stack) ∧
      items = pre ++ (mid ++ post) ∧ Reached q p stack pre mid post sep := by
  obtain ⟨h, hp⟩ := hT.large hn
  have hh := hT.height hp
  obtain ⟨p, stack, pre, mid, post, sep, hd, he, hreach⟩ :=
    descend_reached q hp .root (by simp [Starts]) (by simpa using hT.ascending) (by simp) (by simp)
      (by simp [stackSize]; omega)
  exact ⟨p, stack, pre, mid, post, sep, hd, by simpa using he.symm, hreach⟩

/-- `find` returns the floor of the key. -/
theorem find (hT : Stores t items) (q : Address) :
    ∃ r, Approx.find q t = some r ∧ IsFloor key q.toNat items r := by
  unfold Approx.find
  by_cases hn : t.n ≤ 1
  · rw [if_pos hn]
    have hlen := hT.n
    rcases hT.root with ⟨rfl, hr⟩ | ⟨a, rfl, hr⟩ | ⟨h, hp⟩
    · simp only [List.length_nil] at hlen
      exact ⟨none, by simp [hr, hlen], IsFloor.none (by simp)⟩
    · simp only [List.length_singleton] at hlen
      simp only [hr, hlen, Option.map_some, compare_nonneg, if_neg Nat.one_ne_zero]
      by_cases hq : key a ≤ q.toNat
      · have hasc : Ascending key ([] ++ a :: []) := hT.ascending
        exact ⟨some a, by rw [if_pos hq], hasc.floor hq (by simp)⟩
      · exact ⟨none, by rw [if_neg hq], IsFloor.none (by simpa using hq)⟩
    · have := hp.length_le
      have := Nat.one_lt_two_pow (Nat.succ_ne_zero h)
      omega
  · rw [if_neg hn]
    obtain ⟨p, stack, pre, mid, post, sep, hd, rfl, hreach⟩ := hT.search (by omega) q
    rw [findLeaf_eq hd, Option.bind_some]
    simp only [compare_nonneg, compare_neg]
    have hasc := hT.ascending
    -- Below the left item there is nothing, unless a key above says that it is not above `q`.
    have hleft : ∀ a, minKey mid = a.addr → q.toNat < key a →
        ∀ y ∈ pre ++ (mid ++ post), q.toNat < key y := by
      intro a hmin hqa y hy
      have hpre : pre = [] := by
        rw [hreach.ctx.pre_nil]
        cases hsep : sep with
        | none => rfl
        | some k =>
          obtain rfl : k = a.addr := (hreach.starts k hsep).symm.trans hmin
          have : key a ≤ q.toNat := hreach.below _ hsep
          omega
      subst hpre
      have hle := minKey_le hasc hy
      rw [List.nil_append, minKey_append hreach.rep.ne_nil, hmin] at hle
      exact lt_of_lt_of_le hqa hle
    rcases hreach.rep.leaf_cases with ⟨a, b, rfl, rfl, -⟩ | ⟨a, b, c, rfl, rfl, -, -, hc⟩
    · rw [if_neg (by simp)]
      by_cases hb : key b ≤ q.toNat
      · refine ⟨some b, by rw [if_pos hb], ?_⟩
        have hasc : Ascending key ((pre ++ [a]) ++ b :: post) := by simpa using hasc
        simpa using hasc.floor hb hreach.above
      · rw [if_neg hb]
        have hbpost : ∀ y ∈ b :: post, q.toNat < key y := by
          intro y hy
          rcases List.mem_cons.mp hy with rfl | hy
          · omega
          · exact hreach.above y hy
        by_cases ha : key a ≤ q.toNat
        · refine ⟨some a, by simp [not_lt.mpr ha], ?_⟩
          exact hasc.floor ha hbpost
        · refine ⟨none, by simp [not_le.mp ha], ?_⟩
          exact IsFloor.none (hleft a rfl (by omega))
    · by_cases hcq : key c ≤ q.toNat
      · refine ⟨some c, by rw [if_pos ⟨hc, hcq⟩], ?_⟩
        have hasc : Ascending key ((pre ++ [a, b]) ++ c :: post) := by simpa using hasc
        simpa using hasc.floor hcq hreach.above
      · rw [if_neg fun h => hcq h.2]
        have hcpost : ∀ y ∈ c :: post, q.toNat < key y := by
          intro y hy
          rcases List.mem_cons.mp hy with rfl | hy
          · omega
          · exact hreach.above y hy
        by_cases hb : key b ≤ q.toNat
        · refine ⟨some b, by rw [if_pos hb], ?_⟩
          have hasc : Ascending key ((pre ++ [a]) ++ b :: (c :: post)) := by simpa using hasc
          simpa using hasc.floor hb hcpost
        · rw [if_neg hb]
          have hbpost : ∀ y ∈ b :: (c :: post), q.toNat < key y := by
            intro y hy
            rcases List.mem_cons.mp hy with rfl | hy
            · omega
            · exact hcpost y hy
          by_cases ha : key a ≤ q.toNat
          · refine ⟨some a, by simp [not_lt.mpr ha], ?_⟩
            exact hasc.floor ha hbpost
          · refine ⟨none, by simp [not_le.mp ha], ?_⟩
            exact IsFloor.none (hleft a rfl (by omega))

end Stores

end Doppelganger.Approx
