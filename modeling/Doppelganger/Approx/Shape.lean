import Doppelganger.Approx.Tree
import Mathlib.Algebra.Group.Nat.Defs
import Mathlib.Tactic.Common

/-! The shape of a 2-3 tree.  `Rep h p items` says that node `p` is the root of a 2-3 tree of
height `h` with the items `items` from left to right, and `Ctx h stack pre post sep` that a node of
height `h` fits into the hole of `stack`, between the items `pre` and `post`; `sep` is the key
above that must be the smallest of the node. -/

namespace Doppelganger.Approx

/-- The key of the first item. -/
def minKey : List ApproxRegion → Address
  | [] => 0
  | a :: _ => a.addr

/-- A leaf node has two or three items; an internal node two or three subtrees of one height less.
The keys are the smallest ones of the middle and of the right child; the second key is null exactly
when there is no right child. -/
def Rep : Nat → Node → List ApproxRegion → Prop
  | 0, .leaf p, items => ∃ a b, p.left = some a ∧ p.middle = some b ∧ p.keyItem1 = b.addr ∧
      ((p.keyItem2 = 0 ∧ p.right = none ∧ items = [a, b]) ∨
        ∃ c, p.keyItem2 = c.addr ∧ p.right = some c ∧ items = [a, b, c]) ∧
      ∀ x ∈ items, x.addr ≠ 0
  | h + 1, .internal k1 k2 l m r, items => ∃ xs ys zs, items = xs ++ (ys ++ zs) ∧
      Rep h l xs ∧ Rep h m ys ∧ minKey ys = k1 ∧
      ((k2 = 0 ∧ r = .null ∧ zs = []) ∨ (k2 ≠ 0 ∧ Rep h r zs ∧ minKey zs = k2))
  | _, _, _ => False

/-- The right child of a node of height `h + 1`, or the lack of one. -/
def RepRight (h : Nat) (k2 : Address) (r : Node) (zs : List ApproxRegion) : Prop :=
  (k2 = 0 ∧ r = .null ∧ zs = []) ∨ (k2 ≠ 0 ∧ Rep h r zs ∧ minKey zs = k2)

/-- The items that fill a hole start with the key above it. -/
def Starts (sep : Option Address) (items : List ApproxRegion) : Prop :=
  ∀ k, sep = some k → minKey items = k

inductive Ctx : Nat → List Frame → List ApproxRegion → List ApproxRegion → Option Address → Prop
  | root {h} : Ctx h [] [] [] none
  | left {h k1 k2 m r stack ys zs pre post sep} : Rep h m ys → minKey ys = k1 →
      RepRight h k2 r zs → Ctx (h + 1) stack pre post sep →
      Ctx h (.left k1 k2 m r :: stack) pre (ys ++ (zs ++ post)) sep
  | middle {h k1 k2 l r stack xs zs pre post sep} : Rep h l xs → RepRight h k2 r zs →
      Starts sep xs → Ctx (h + 1) stack pre post sep →
      Ctx h (.middle k1 k2 l r :: stack) (pre ++ xs) (zs ++ post) (some k1)
  | right {h k1 k2 l m stack xs ys pre post sep} : Rep h l xs → Rep h m ys → minKey ys = k1 →
      Starts sep xs → Ctx (h + 1) stack pre post sep →
      Ctx h (.right k1 k2 l m :: stack) (pre ++ (xs ++ ys)) post (some k2)

section

variable {h : Nat} {p l m r x : Node} {k1 k2 key : Address} {sep : Option Address}
  {items mid pre post xs ys zs : List ApproxRegion} {stack : List Frame} {a b c : ApproxRegion}

@[simp] theorem minKey_cons : minKey (a :: xs) = a.addr := rfl

theorem minKey_append (hx : xs ≠ []) (ys : List ApproxRegion) : minKey (xs ++ ys) = minKey xs := by
  cases xs with
  | nil => exact absurd rfl hx
  | cons a xs => rfl

namespace Rep

theorem internal (hl : Rep h l xs) (hm : Rep h m ys) (hk : minKey ys = k1)
    (hr : RepRight h k2 r zs) : Rep (h + 1) (.internal k1 k2 l m r) (xs ++ (ys ++ zs)) :=
  ⟨xs, ys, zs, rfl, hl, hm, hk, hr⟩

theorem internal2 (hl : Rep h l xs) (hm : Rep h m ys) (hk : minKey ys = k1) :
    Rep (h + 1) (.internal k1 0 l m .null) (xs ++ ys) :=
  ⟨xs, ys, [], by simp, hl, hm, hk, .inl ⟨rfl, rfl, rfl⟩⟩

theorem leaf2 (ha : a.addr ≠ 0) (hb : b.addr ≠ 0) :
    Rep 0 (.leaf ⟨b.addr, 0, some a, some b, none⟩) [a, b] :=
  ⟨a, b, rfl, rfl, rfl, .inl ⟨rfl, rfl, rfl⟩, by simp [ha, hb]⟩

theorem leaf3 (ha : a.addr ≠ 0) (hb : b.addr ≠ 0) (hc : c.addr ≠ 0) :
    Rep 0 (.leaf ⟨b.addr, c.addr, some a, some b, some c⟩) [a, b, c] :=
  ⟨a, b, rfl, rfl, rfl, .inr ⟨c, rfl, rfl, rfl⟩, by simp [ha, hb, hc]⟩

/-- A leaf node is one of two kinds. -/
theorem leaf_cases {p : LeafNode} (hp : Rep 0 (.leaf p) items) :
    (∃ a b, p = ⟨b.addr, 0, some a, some b, none⟩ ∧ items = [a, b] ∧ a.addr ≠ 0 ∧ b.addr ≠ 0) ∨
      ∃ a b c, p = ⟨b.addr, c.addr, some a, some b, some c⟩ ∧ items = [a, b, c] ∧
        a.addr ≠ 0 ∧ b.addr ≠ 0 ∧ c.addr ≠ 0 := by
  obtain ⟨k1, k2, l, m, r⟩ := p
  obtain ⟨a, b, rfl, rfl, rfl, ⟨rfl, rfl, rfl⟩ | ⟨c, rfl, rfl, rfl⟩, hk⟩ := hp
  · exact .inl ⟨a, b, rfl, rfl, by simpa using hk⟩
  · exact .inr ⟨a, b, c, rfl, rfl, by simpa using hk⟩

theorem leaf_left {p : LeafNode} (hp : Rep 0 (.leaf p) items) :
    ∃ a, p.left = some a ∧ minKey items = a.addr := by
  obtain ⟨a, b, ha, -, -, ⟨-, -, rfl⟩ | ⟨c, -, -, rfl⟩, -⟩ := hp
  · exact ⟨a, ha, rfl⟩
  · exact ⟨a, ha, rfl⟩

theorem leaf_inv (hp : Rep 0 p items) : ∃ q, p = .leaf q := by
  cases p with
  | leaf q => exact ⟨q, rfl⟩
  | null => exact hp.elim
  | internal => exact hp.elim

theorem internal_inv (hp : Rep (h + 1) p items) :
    ∃ k1 k2 l m r xs ys zs, p = .internal k1 k2 l m r ∧ items = xs ++ (ys ++ zs) ∧
      Rep h l xs ∧ Rep h m ys ∧ minKey ys = k1 ∧ RepRight h k2 r zs := by
  cases p with
  | leaf => exact hp.elim
  | null => exact hp.elim
  | internal k1 k2 l m r =>
    obtain ⟨xs, ys, zs, hp⟩ := hp
    exact ⟨k1, k2, l, m, r, xs, ys, zs, rfl, hp⟩

/-- A tree of height `h` has at least `2 ^ (h + 1)` items. -/
theorem length_le : ∀ {h : Nat} {p : Node} {items : List ApproxRegion}, Rep h p items →
    2 ^ (h + 1) ≤ items.length
  | 0, p, items, hp => by
    obtain ⟨q, rfl⟩ := hp.leaf_inv
    rcases hp.leaf_cases with ⟨a, b, -, rfl, -⟩ | ⟨a, b, c, -, rfl, -⟩ <;> simp
  | h + 1, p, items, hp => by
    obtain ⟨k1, k2, l, m, r, xs, ys, zs, rfl, rfl, hl, hm, -⟩ := hp.internal_inv
    have hx := length_le hl
    have hy := length_le hm
    rw [List.length_append, List.length_append, Nat.pow_succ]
    omega

theorem ne_nil (hp : Rep h p items) : items ≠ [] := by
  rintro rfl
  have := hp.length_le
  have := Nat.two_pow_pos (h + 1)
  simp at *

theorem keys : ∀ {h : Nat} {p : Node} {items : List ApproxRegion}, Rep h p items →
    ∀ x ∈ items, x.addr ≠ 0
  | 0, p, items, hp, x, hx => by
    obtain ⟨q, rfl⟩ := hp.leaf_inv
    obtain ⟨-, -, -, -, -, -, hk⟩ := hp
    exact hk x hx
  | h + 1, p, items, hp, x, hx => by
    obtain ⟨k1, k2, l, m, r, xs, ys, zs, rfl, rfl, hl, hm, -, hr⟩ := hp.internal_inv
    rcases List.mem_append.mp hx with hx | hx
    · exact keys hl x hx
    rcases List.mem_append.mp hx with hx | hx
    · exact keys hm x hx
    rcases hr with ⟨-, -, rfl⟩ | ⟨-, hr, -⟩
    · simp at hx
    · exact keys hr x hx

theorem minKey_ne (hp : Rep h p items) : minKey items ≠ 0 := by
  cases items with
  | nil => exact absurd rfl hp.ne_nil
  | cons a items => exact hp.keys a (by simp)

theorem right (hr : Rep h r zs) (hk : minKey zs = k2) : RepRight h k2 r zs :=
  .inr ⟨hk ▸ hr.minKey_ne, hr, hk⟩

theorem internal3 (hl : Rep h l xs) (hm : Rep h m ys) (hr : Rep h r zs) (hk1 : minKey ys = k1)
    (hk2 : minKey zs = k2) : Rep (h + 1) (.internal k1 k2 l m r) (xs ++ (ys ++ zs)) :=
  hl.internal hm hk1 (hr.right hk2)

end Rep

theorem Starts.append (hs : Starts sep xs) (hx : xs ≠ []) (ys : List ApproxRegion) :
    Starts sep (xs ++ ys) :=
  fun k hk => (minKey_append hx ys).trans (hs k hk)

theorem Starts.of_append (hs : Starts sep (xs ++ ys)) (hx : xs ≠ []) : Starts sep xs :=
  fun k hk => (minKey_append hx ys).symm.trans (hs k hk)

/-- A subtree that fits into the hole completes the tree. -/
theorem Ctx.plug : ∀ {h : Nat} {stack : List Frame} {pre post : List ApproxRegion}
    {sep : Option Address} {p : Node} {mid : List ApproxRegion},
    Ctx h stack pre post sep → Rep h p mid → Starts sep mid →
    ∃ H, Rep H (Approx.plug p stack) (pre ++ (mid ++ post))
  | h, _, _, _, _, p, mid, .root, hp, _ => ⟨h, by simpa [Approx.plug] using hp⟩
  | _, _, _, _, _, p, mid, .left hm hk hr hc, hp, hs => by
    have := hc.plug (hp.internal hm hk hr) (hs.append hp.ne_nil _)
    simpa [Approx.plug, Frame.plug] using this
  | _, _, _, _, _, p, mid, .middle hl hr hxs hc, hp, hs => by
    have := hc.plug (hl.internal hp (hs _ rfl) hr) (hxs.append hl.ne_nil _)
    simpa [Approx.plug, Frame.plug] using this
  | _, _, _, _, _, p, mid, .right hl hm hk hxs hc, hp, hs => by
    have := hc.plug (hl.internal3 hm hp hk (hs _ rfl)) (hxs.append hl.ne_nil _)
    simpa [Approx.plug, Frame.plug] using this

/-- The loop of the insertion: nodes `p` and `x` take the place of the one in the hole. -/
theorem Ctx.insertUp : ∀ {h : Nat} {stack : List Frame} {pre post : List ApproxRegion}
    {sep : Option Address} {p x : Node} {xs ys : List ApproxRegion} {xMin : Address},
    Ctx h stack pre post sep → Rep h p xs → Rep h x ys → minKey ys = xMin → Starts sep xs →
    ∃ H, Rep H (Approx.insertUp x xMin p stack) (pre ++ (xs ++ (ys ++ post)))
  | h, _, _, _, _, p, x, xs, ys, xMin, .root, hp, hx, hmin, _ =>
    ⟨h + 1, by simpa [Approx.insertUp] using hp.internal2 hx hmin⟩
  | _, _, _, _, _, p, x, xs, ys, xMin, .left hm hk hr hc, hp, hx, hmin, hs => by
    rw [Approx.insertUp]
    rcases hr with ⟨rfl, rfl, rfl⟩ | ⟨hk2, hr, hkz⟩
    · rw [if_neg (by simp)]
      have := hc.plug (hp.internal3 hx hm hmin hk) (hs.append hp.ne_nil _)
      simpa using this
    · rw [if_pos hk2]
      have := hc.insertUp (hp.internal2 hx hmin) (hm.internal2 hr hkz)
        ((minKey_append hm.ne_nil _).trans hk) (hs.append hp.ne_nil _)
      simpa using this
  | _, _, _, _, _, p, x, xs, ys, xMin, .middle hl hr hxs hc, hp, hx, hmin, hs => by
    rw [Approx.insertUp]
    rcases hr with ⟨rfl, rfl, rfl⟩ | ⟨hk2, hr, hkz⟩
    · rw [if_neg (by simp)]
      have := hc.plug (hl.internal3 hp hx (hs _ rfl) hmin) (hxs.append hl.ne_nil _)
      simpa using this
    · rw [if_pos hk2]
      have := hc.insertUp (hl.internal2 hp (hs _ rfl)) (hx.internal2 hr hkz)
        ((minKey_append hx.ne_nil _).trans hmin) (hxs.append hl.ne_nil _)
      simpa using this
  | _, _, _, _, _, p, x, xs, ys, xMin, .right hl hm hk hxs hc, hp, hx, hmin, hs => by
    rw [Approx.insertUp]
    have := hc.insertUp (hl.internal2 hm hk) (hp.internal2 hx hmin)
      ((minKey_append hp.ne_nil _).trans (hs _ rfl)) (hxs.append hl.ne_nil _)
    simpa using this

/-- The merging loop: the only child of a node that has lost its others takes the place of the
node, or is merged with children of a sibling. -/
theorem Ctx.deleteUp : ∀ {h : Nat} {stack : List Frame} {pre post : List ApproxRegion}
    {sep : Option Address} {x : Node} {xs : List ApproxRegion},
    Ctx (h + 1) stack pre post sep → Rep h x xs → Starts sep xs →
    ∃ root H, Approx.deleteUp 0 .null x stack = some root ∧ Rep H root (pre ++ (xs ++ post))
  | h, _, _, _, _, x, xs, .root, hx, _ => ⟨x, h, rfl, by simpa using hx⟩
  | h, _, _, _, _, x, xs, .left hm hk hr hc, hx, hs => by
    obtain ⟨q1, q2, ql, qm, qr, as, bs, cs, rfl, rfl, hql, hqm, hqk, hqr⟩ := hm.internal_inv
    rw [minKey_append hql.ne_nil] at hk
    rw [Approx.deleteUp]
    rcases hqr with ⟨rfl, rfl, rfl⟩ | ⟨hq2, hqr, hqk2⟩
    · have hq := hx.internal3 hql hqm hk hqk
      rcases hr with ⟨rfl, rfl, rfl⟩ | ⟨hk2, hr, hkz⟩
      · obtain ⟨root, H, hroot, hrep⟩ := hc.deleteUp hq (hs.append hx.ne_nil _)
        exact ⟨root, H, by simpa using hroot, by simpa using hrep⟩
      · obtain ⟨H, hrep⟩ := hc.plug (hq.internal2 hr hkz)
          (Starts.append (hs.append hx.ne_nil _) (by simp [hx.ne_nil]) _)
        exact ⟨_, H, by simp [hk2]; rfl, by simpa using hrep⟩
    · obtain ⟨H, hrep⟩ := hc.plug ((hx.internal2 hql hk).internal (hqm.internal2 hqr hqk2)
        ((minKey_append hqm.ne_nil _).trans hqk) hr)
        (Starts.append (hs.append hx.ne_nil _) (by simp [hx.ne_nil]) _)
      exact ⟨_, H, by simp [hq2]; rfl, by simpa using hrep⟩
  | h, _, _, _, _, x, xs, .middle hl hr hxs hc, hx, hs => by
    obtain ⟨q1, q2, ql, qm, qr, as, bs, cs, rfl, rfl, hql, hqm, hqk, hqr⟩ := hl.internal_inv
    have hxs' := hxs.of_append hql.ne_nil
    rw [Approx.deleteUp]
    rcases hqr with ⟨rfl, rfl, rfl⟩ | ⟨hq2, hqr, hqk2⟩
    · have hq := hql.internal3 hqm hx hqk (hs _ rfl)
      rcases hr with ⟨rfl, rfl, rfl⟩ | ⟨hk2, hr, hkz⟩
      · obtain ⟨root, H, hroot, hrep⟩ := hc.deleteUp hq (hxs'.append hql.ne_nil _)
        exact ⟨root, H, by simpa using hroot, by simpa using hrep⟩
      · obtain ⟨H, hrep⟩ := hc.plug (hq.internal2 hr hkz)
          (Starts.append (hxs'.append hql.ne_nil _) (by simp [hql.ne_nil]) _)
        exact ⟨_, H, by simp [hk2]; rfl, by simpa using hrep⟩
    · obtain ⟨H, hrep⟩ := hc.plug ((hql.internal2 hqm hqk).internal (hqr.internal2 hx (hs _ rfl))
        ((minKey_append hqr.ne_nil _).trans hqk2) hr)
        (Starts.append (hxs'.append hql.ne_nil _) (by simp [hql.ne_nil]) _)
      exact ⟨_, H, by simp [hq2]; rfl, by simpa using hrep⟩
  | h, _, _, _, _, x, xs, .right hl hm hk hxs hc, hx, hs => by
    obtain ⟨q1, q2, ql, qm, qr, as, bs, cs, rfl, rfl, hql, hqm, hqk, hqr⟩ := hm.internal_inv
    rw [minKey_append hql.ne_nil] at hk
    rw [Approx.deleteUp]
    rcases hqr with ⟨rfl, rfl, rfl⟩ | ⟨hq2, hqr, hqk2⟩
    · obtain ⟨H, hrep⟩ := hc.plug (hl.internal2 (hql.internal3 hqm hx hqk (hs _ rfl))
        ((minKey_append hql.ne_nil _).trans hk)) (hxs.append hl.ne_nil _)
      exact ⟨_, H, by simp; rfl, by simpa using hrep⟩
    · obtain ⟨H, hrep⟩ := hc.plug (hl.internal3 (hql.internal2 hqm hqk)
        (hqr.internal2 hx (hs _ rfl)) ((minKey_append hql.ne_nil _).trans hk)
        ((minKey_append hqr.ne_nil _).trans hqk2)) (hxs.append hl.ne_nil _)
      exact ⟨_, H, by simp [hq2]; rfl, by simpa using hrep⟩

/-- The same at the leaves: node `p` has only the item `a` left, and it is not the root. -/
theorem Ctx.mergeLeaf (p : LeafNode) (hc : Ctx 0 stack pre post sep) (hp2 : p.keyItem2 = 0)
    (hpr : p.right = none) (ha : a.addr ≠ 0) (hs : Starts sep [a]) (hstack : stack ≠ []) :
    ∃ root H, Approx.mergeLeaf p a stack = some root ∧ Rep H root (pre ++ (a :: post)) := by
  obtain ⟨p1, p2, pl, pm, pr⟩ := p
  obtain rfl : p2 = 0 := hp2
  obtain rfl : pr = none := hpr
  cases hc with
  | root => exact absurd rfl hstack
  | left hm hk hr hc =>
    obtain ⟨q, rfl⟩ := hm.leaf_inv
    rcases hm.leaf_cases with ⟨b, c, rfl, rfl, hb, hcc⟩ | ⟨b, c, d, rfl, rfl, hb, hcc, hd⟩
    · have hq := Rep.leaf3 ha hb hcc
      rcases hr with ⟨rfl, rfl, rfl⟩ | ⟨hk2, hr, hkz⟩
      · obtain ⟨root, H, hroot, hrep⟩ := hc.deleteUp hq hs
        exact ⟨root, H, by simpa [Approx.mergeLeaf] using hroot, by simpa using hrep⟩
      · obtain ⟨H, hrep⟩ := hc.plug (hq.internal2 hr hkz) hs
        exact ⟨_, H, by simp [Approx.mergeLeaf, hk2]; rfl, by simpa using hrep⟩
    · obtain ⟨H, hrep⟩ := hc.plug ((Rep.leaf2 ha hb).internal (Rep.leaf2 hcc hd) rfl hr) hs
      exact ⟨_, H, by simp [Approx.mergeLeaf, hd]; rfl, by simpa using hrep⟩
  | middle hl hr hxs hc =>
    obtain ⟨q, rfl⟩ := hl.leaf_inv
    rcases hl.leaf_cases with ⟨b, c, rfl, rfl, hb, hcc⟩ | ⟨b, c, d, rfl, rfl, hb, hcc, hd⟩
    · have hq := Rep.leaf3 hb hcc ha
      rcases hr with ⟨rfl, rfl, rfl⟩ | ⟨hk2, hr, hkz⟩
      · obtain ⟨root, H, hroot, hrep⟩ := hc.deleteUp hq hxs
        exact ⟨root, H, by simpa [Approx.mergeLeaf] using hroot, by simpa using hrep⟩
      · obtain ⟨H, hrep⟩ := hc.plug (hq.internal2 hr hkz) hxs
        exact ⟨_, H, by simp [Approx.mergeLeaf, hk2]; rfl, by simpa using hrep⟩
    · obtain ⟨H, hrep⟩ := hc.plug ((Rep.leaf2 hb hcc).internal (Rep.leaf2 hd ha) rfl hr) hxs
      exact ⟨_, H, by simp [Approx.mergeLeaf, hd]; rfl, by simpa using hrep⟩
  | right hl hm hk hxs hc =>
    obtain ⟨q, rfl⟩ := hm.leaf_inv
    rcases hm.leaf_cases with ⟨b, c, rfl, rfl, hb, hcc⟩ | ⟨b, c, d, rfl, rfl, hb, hcc, hd⟩
    · obtain ⟨H, hrep⟩ := hc.plug (hl.internal2 (Rep.leaf3 hb hcc ha) hk) (hxs.append hl.ne_nil _)
      exact ⟨_, H, by simp [Approx.mergeLeaf]; rfl, by simpa using hrep⟩
    · obtain ⟨H, hrep⟩ := hc.plug (hl.internal3 (Rep.leaf2 hb hcc) (Rep.leaf2 hd ha) hk rfl)
        (hxs.append hl.ne_nil _)
      exact ⟨_, H, by simp [Approx.mergeLeaf, hd]; rfl, by simpa using hrep⟩

/-- `setMinKey` changes the key above the hole, if there is one. -/
theorem Ctx.setMinKey : ∀ {h : Nat} {stack : List Frame} {pre post : List ApproxRegion}
    {sep : Option Address}, Ctx h stack pre post sep → ∀ key,
    (sep = none ∧ Approx.setMinKey key stack = none) ∨
      ∃ stack', Approx.setMinKey key stack = some stack' ∧ stack'.length = stack.length ∧
        Ctx h stack' pre post (some key)
  | _, _, _, _, _, .root, _ => .inl ⟨rfl, rfl⟩
  | _, _, _, _, _, .left hm hk hr hc, key => by
    rcases hc.setMinKey key with ⟨hs, hn⟩ | ⟨stack', hs, hlen, hc'⟩
    · exact .inl ⟨hs, by simp [Approx.setMinKey, hn]⟩
    · exact .inr ⟨_, by simp [Approx.setMinKey, hs], by simp [hlen], .left hm hk hr hc'⟩
  | _, _, _, _, _, .middle hl hr hxs hc, key =>
    .inr ⟨_, rfl, rfl, .middle hl hr hxs hc⟩
  | _, _, _, _, _, .right hl hm hk hxs hc, key =>
    .inr ⟨_, rfl, rfl, .right hl hm hk hxs hc⟩

end

end Doppelganger.Approx
