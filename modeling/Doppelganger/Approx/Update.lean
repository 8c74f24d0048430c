import Doppelganger.Approx.Search

/-! Insertion into and deletion from a 2-3 tree: the result stores the items with one more, or one
less, and an insertion of a key in the tree or a deletion of a key that is not changes nothing. -/

namespace Doppelganger.Approx

open Lib

section

variable {t : Tree} {region : ApproxRegion} {p : LeafNode} {stack : List Frame} {root : Node}
  {h : Nat} {k q min : Address} {sep : Option Address}
  {items pre mid post xs ys : List ApproxRegion}
  {x y a b c : ApproxRegion}

theorem Stores.of_rep (hrep : Rep h root items) (hasc : Ascending key items) {n : Nat}
    (hn : n = items.length) (hmin : min = minKey items) : Stores ⟨root, n, min⟩ items :=
  ⟨hasc, hrep.keys, hn, hmin, .inr (.inr ⟨h, hrep⟩)⟩

/-- A tree of at most two items is a leaf node. -/
theorem Stores.small (hT : Stores t items) (hn : t.n ≤ 2) :
    (items = [] ∧ t.root = .leaf ⟨0, 0, none, none, none⟩) ∨
    (∃ a, items = [a] ∧ t.root = .leaf ⟨0, 0, some a, none, none⟩) ∨
      ∃ a b, items = [a, b] ∧ t.root = .leaf ⟨b.addr, 0, some a, some b, none⟩ := by
  rcases hT.root with h0 | h1 | ⟨h, hp⟩
  · exact .inl h0
  · exact .inr (.inl h1)
  · have hlen := hp.length_le
    rw [← hT.n] at hlen
    cases h with
    | succ h =>
      have := Nat.one_lt_two_pow (Nat.succ_ne_zero h)
      rw [Nat.pow_succ] at hlen
      omega
    | zero =>
      obtain ⟨p, hp'⟩ := hp.leaf_inv
      rw [hp'] at hp
      rcases hp.leaf_cases with ⟨a, b, rfl, rfl, -⟩ | ⟨a, b, c, -, rfl, -⟩
      · exact .inr (.inr ⟨a, b, rfl, hp'⟩)
      · have := hT.n
        simp at this
        omega

theorem alloc_stores : Stores alloc [] :=
  ⟨List.Pairwise.nil, by simp, rfl, rfl, .inl ⟨rfl, rfl⟩⟩

/-- An item with the key of the search is in the leaf node where the search ends. -/
theorem Reached.mem (hr : Reached q p stack pre mid post sep)
    (hasc : Ascending key (pre ++ (mid ++ post))) (hx : x ∈ pre ++ (mid ++ post))
    (hk : x.addr = q) : x ∈ mid := by
  have hxq : key x = q.toNat := congrArg UInt64.toNat hk
  rcases List.mem_append.mp hx with hpre | hx
  · have hne : sep ≠ none := fun hs => by simp [hr.ctx.pre_nil.mpr hs] at hpre
    obtain ⟨k, hsep⟩ := Option.ne_none_iff_exists'.mp hne
    obtain ⟨y, ys, hmid⟩ := List.exists_cons_of_ne_nil hr.rep.ne_nil
    have hy : y.addr = k := by simpa [hmid] using hr.starts k hsep
    have hlt : key x < key y := hasc.split.2.2 x hpre y (by simp [hmid])
    obtain rfl := hy
    have hle : key y ≤ q.toNat := hr.below _ hsep
    omega
  · rcases List.mem_append.mp hx with hmid | hpost
    · exact hmid
    · have := hr.above x hpost
      omega

/-- The region belongs between the items `xs` and `ys`; `min` is its key if it is the first. -/
structure Between (region : ApproxRegion) (xs ys : List ApproxRegion) (min : Option Address) :
    Prop where
  below : ∀ y ∈ xs, key y < key region
  above : ∀ y ∈ ys, key region < key y
  first : (min = none ∧ xs ≠ []) ∨ (min = some region.addr ∧ xs = [])

/-- What `insertLeaf` makes of a leaf node with the items `mid`. -/
inductive Inserted (region : ApproxRegion) (mid : List ApproxRegion) :
    LeafInsert → Option Address → Prop
  | failed {x : ApproxRegion} : x ∈ mid → x.addr = region.addr →
      Inserted region mid (.failed (.key x.addr)) none
  | done {xs ys : List ApproxRegion} {min : Option Address} {p : LeafNode} :
      mid = xs ++ ys → Between region xs ys min →
      Rep 0 (.leaf p) (xs ++ region :: ys) → Inserted region mid (.done p) min
  | split {xs ys as bs : List ApproxRegion} {min : Option Address} {p newNode : LeafNode} :
      mid = xs ++ ys → Between region xs ys min →
      as ++ bs = xs ++ region :: ys → Rep 0 (.leaf p) as → Rep 0 (.leaf newNode) bs →
      Inserted region mid (.split p newNode) min

theorem insertLeaf_eq (hp : Rep 0 (.leaf p) mid) (hasc : Ascending key mid)
    (hk : region.addr ≠ 0) :
    ∃ result min, insertLeaf region p = some (result, min) ∧ Inserted region mid result min := by
  have hlt : ∀ {x y : ApproxRegion}, key x ≤ key y → ¬x.addr = y.addr → key x < key y :=
    fun hle hne => lt_of_le_of_ne hle fun e => hne (UInt64.toNat_inj.mp e)
  simp only [insertLeaf, compare_nonneg, compare_nonpos, compare_eq]
  rcases hp.leaf_cases with ⟨a, b, rfl, rfl, ha, hb⟩ | ⟨a, b, c, rfl, rfl, ha, hb, hc⟩
  · have hab : key a < key b := by simpa [Ascending] using hasc
    rw [if_neg (by simp)]
    by_cases hrb : key b ≤ key region
    · rw [if_pos hrb]
      by_cases hbe : region.addr = b.addr
      · exact ⟨_, _, by rw [if_pos hbe], .failed (by simp) hbe.symm⟩
      · have hbr := hlt hrb fun e => hbe e.symm
        have hbt : Between region [a, b] [] none :=
          ⟨by simp; omega, by simp, .inl ⟨rfl, by simp⟩⟩
        exact ⟨_, _, by rw [if_neg hbe]; rfl, .done rfl hbt (Rep.leaf3 ha hb hk)⟩
    · rw [if_neg hrb, Option.bind_some]
      by_cases hae : region.addr = a.addr
      · exact ⟨_, _, by rw [if_pos hae], .failed (by simp) hae.symm⟩
      · rw [if_neg hae]
        by_cases hra : key region ≤ key a
        · have har := hlt hra hae
          have hbt : Between region [] [a, b] (some region.addr) :=
            ⟨by simp, by simp; omega, .inr ⟨rfl, rfl⟩⟩
          exact ⟨_, _, by simp only [if_pos hra]; rfl, .done rfl hbt (Rep.leaf3 hk ha hb)⟩
        · have hbt : Between region [a] [b] none :=
            ⟨by simp; omega, by simp; omega, .inl ⟨rfl, by simp⟩⟩
          exact ⟨_, _, by simp only [if_neg hra]; rfl, .done rfl hbt (Rep.leaf3 ha hk hb)⟩
  · have habc : (key a < key b ∧ key a < key c) ∧ key b < key c := by simpa [Ascending] using hasc
    by_cases hrc : key c ≤ key region
    · rw [if_pos ⟨hc, hrc⟩]
      by_cases hce : region.addr = c.addr
      · exact ⟨_, _, by rw [if_pos hce], .failed (by simp) hce.symm⟩
      · have hcr := hlt hrc fun e => hce e.symm
        have hbt : Between region [a, b, c] [] none :=
          ⟨by simp; omega, by simp, .inl ⟨rfl, by simp⟩⟩
        exact ⟨_, _, by rw [if_neg hce], .split rfl hbt (show [a, b] ++ [c, region] = _ from rfl)
          (Rep.leaf2 ha hb) (Rep.leaf2 hc hk)⟩
    · rw [if_neg fun h => hrc h.2]
      by_cases hrb : key b ≤ key region
      · rw [if_pos hrb]
        by_cases hbe : region.addr = b.addr
        · exact ⟨_, _, by rw [if_pos hbe], .failed (by simp) hbe.symm⟩
        · have hbr := hlt hrb fun e => hbe e.symm
          have hbt : Between region [a, b] [c] none :=
            ⟨by simp; omega, by simp; omega, .inl ⟨rfl, by simp⟩⟩
          exact ⟨_, _, by rw [if_neg hbe, if_pos hc]; rfl, .split rfl hbt
            (show [a, b] ++ [region, c] = _ from rfl) (Rep.leaf2 ha hb) (Rep.leaf2 hk hc)⟩
      · rw [if_neg hrb, Option.bind_some]
        by_cases hae : region.addr = a.addr
        · exact ⟨_, _, by rw [if_pos hae], .failed (by simp) hae.symm⟩
        · rw [if_neg hae]
          by_cases hra : key region ≤ key a
          · have har := hlt hra hae
            have hbt : Between region [] [a, b, c] (some region.addr) :=
              ⟨by simp, by simp; omega, .inr ⟨rfl, rfl⟩⟩
            exact ⟨_, _, by simp only [if_pos hra, if_pos hc]; rfl, .split rfl hbt
              (show [region, a] ++ [b, c] = _ from rfl) (Rep.leaf2 hk ha) (Rep.leaf2 hb hc)⟩
          · have hbt : Between region [a] [b, c] none :=
              ⟨by simp; omega, by simp; omega, .inl ⟨rfl, by simp⟩⟩
            exact ⟨_, _, by simp only [if_neg hra, if_pos hc]; rfl, .split rfl hbt
              (show [a, region] ++ [b, c] = _ from rfl) (Rep.leaf2 ha hk) (Rep.leaf2 hb hc)⟩

/-- Between its neighbours in the leaf node, the region is between its neighbours in the tree. -/
theorem Between.fits {minItem : Option Address} (hb : Between region xs ys minItem)
    (hr : Reached region.addr p stack pre (xs ++ ys) post sep)
    (hasc : Ascending key (pre ++ ((xs ++ ys) ++ post))) :
    Ascending key ((pre ++ xs) ++ region :: (ys ++ post)) ∧ Starts sep (xs ++ region :: ys) ∧
      minItem.getD (minKey (pre ++ ((xs ++ ys) ++ post))) =
        minKey ((pre ++ xs) ++ region :: (ys ++ post)) := by
  have hasc' : Ascending key ((pre ++ xs) ++ (ys ++ post)) := by simpa using hasc
  have habove : ∀ y ∈ ys ++ post, key region < key y := fun y hy =>
    (List.mem_append.mp hy).elim (hb.above y) (hr.above y)
  rcases hb.first with ⟨rfl, hxs⟩ | ⟨rfl, rfl⟩
  · obtain ⟨x, xs', rfl⟩ := List.exists_cons_of_ne_nil hxs
    refine ⟨hasc'.insert (fun y hy => ?_) habove, ?_, ?_⟩
    · rcases List.mem_append.mp hy with hy | hy
      · exact lt_trans (hasc.split.2.2 y hy x (by simp)) (hb.below x (by simp))
      · exact hb.below y hy
    · exact (hr.starts.of_append hxs).append hxs _
    · cases pre <;> simp
  · obtain ⟨y, ys', rfl⟩ := List.exists_cons_of_ne_nil (show ys ≠ [] from hr.rep.ne_nil)
    have hsep : sep = none := by
      cases hsep : sep with
      | none => rfl
      | some k =>
        obtain rfl : y.addr = k := hr.starts k hsep
        have hle : key y ≤ key region := hr.below _ hsep
        have := hb.above y (by simp)
        omega
    obtain rfl := hr.ctx.pre_nil.mpr hsep
    exact ⟨hasc'.insert (by simp) habove, by simp [Starts, hsep], rfl⟩

/-- An insertion fails when the key is in the tree, and otherwise adds the region in its place. -/
theorem Stores.insert (hT : Stores t items) (hk : region.addr ≠ 0) :
    ∃ found t', Approx.insert region t = some (found, t') ∧
      ((found.isNull = false ∧ t' = t ∧ ∃ x ∈ items, x.addr = region.addr) ∨
        (found = .null ∧ ∃ xs ys, items = xs ++ ys ∧ Stores t' (xs ++ region :: ys))) := by
  have hlen := hT.n
  by_cases hn : t.n ≤ 1
  · rcases hT.small (by omega) with ⟨rfl, hr⟩ | ⟨a, rfl, hr⟩ | ⟨a, b, rfl, -⟩
    · refine ⟨.null, ⟨.leaf ⟨0, 0, some region, none, none⟩, 1, region.addr⟩, ?_,
        .inr ⟨rfl, [], [], rfl, ?_⟩⟩
      · simp only [List.length_nil] at hlen
        simp [Approx.insert, hr, hlen]
      · exact ⟨List.pairwise_singleton _ _, by simpa using hk, rfl, rfl,
          .inr (.inl ⟨region, rfl, rfl⟩)⟩
    · have ha : a.addr ≠ 0 := hT.keys a (by simp)
      have hmin : t.minItem = a.addr := hT.minItem
      simp only [List.length_singleton] at hlen
      simp only [Approx.insert, hr, hlen, le_refl, if_true, if_neg Nat.one_ne_zero, compare_eq,
        compare_pos, Option.map_some]
      by_cases hae : region.addr = a.addr
      · exact ⟨_, _, by rw [if_pos hae], .inl ⟨rfl, rfl, a, by simp, hae.symm⟩⟩
      · have hne : key region ≠ key a := fun e => hae (UInt64.toNat_inj.mp e)
        rw [if_neg hae]
        by_cases hra : key a < key region
        · refine ⟨_, _, by rw [if_pos hra], .inr ⟨rfl, [a], [], rfl, ?_⟩⟩
          exact Stores.of_rep (Rep.leaf2 ha hk) (by simpa [Ascending] using hra) rfl hmin
        · refine ⟨_, _, by rw [if_neg hra], .inr ⟨rfl, [], [a], rfl, ?_⟩⟩
          have hlt : key region < key a := by omega
          exact Stores.of_rep (Rep.leaf2 hk ha) (by simpa [Ascending] using hlt) rfl rfl
    · simp at hlen
      omega
  · obtain ⟨p, stack, pre, mid, post, sep, hd, rfl, hr⟩ := hT.search (by omega) region.addr
    have hasc := hT.ascending
    obtain ⟨result, min, hi, hins⟩ := insertLeaf_eq hr.rep hasc.split.2.1.split.1 hk
    simp only [Approx.insert, if_neg hn, hd, Option.bind_some, hi]
    cases hins with
    | failed hx hxk =>
      refine ⟨_, t, rfl, .inl ⟨?_, rfl, _, by simp [hx], hxk⟩⟩
      simp [Pointer.isNull, hxk, hk]
    | @done xs ys _ p' hmid hbt hrep =>
      subst hmid
      obtain ⟨hasc', hs, hmin⟩ := hbt.fits hr hasc
      obtain ⟨H, hrep'⟩ := hr.ctx.plug hrep hs
      refine ⟨_, _, rfl, .inr ⟨rfl, pre ++ xs, ys ++ post, by simp, ?_⟩⟩
      refine Stores.of_rep (by simpa using hrep') hasc' ?_ (hT.minItem ▸ hmin)
      rw [hlen]
      simp
      omega
    | @split xs ys as bs _ p' newNode hmid hbt hsplit hp' hnew =>
      subst hmid
      obtain ⟨hasc', hs, hmin⟩ := hbt.fits hr hasc
      obtain ⟨a, ha, hmina⟩ := hnew.leaf_left
      obtain ⟨H, hrep'⟩ := hr.ctx.insertUp hp' hnew hmina
        (Starts.of_append (hsplit ▸ hs) hp'.ne_nil)
      have hitems : pre ++ (as ++ (bs ++ post)) = (pre ++ xs) ++ region :: (ys ++ post) := by
        rw [← List.append_assoc as, hsplit]
        simp
      refine ⟨_, _, by simp only [ha]; rfl, .inr ⟨rfl, pre ++ xs, ys ++ post, by simp, ?_⟩⟩
      refine Stores.of_rep (hitems ▸ hrep') hasc' ?_ (hT.minItem ▸ hmin)
      rw [hlen]
      simp
      omega

end

end Doppelganger.Approx
