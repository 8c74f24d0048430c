import Mathlib.Data.List.Pairwise
import Mathlib.Order.Lattice
import Mathlib.Order.Nat
import Mathlib.Tactic.Common

/-! Lists in strictly increasing order of a key, the floor of a key in such a list, and the interval
of a disjoint family that holds a point, which the floor finds. -/

namespace Doppelganger.Lib

variable {α κ : Type*} [LinearOrder κ] {key : α → κ} {l a b : List α} {x y : α} {q : κ}

def Ascending (key : α → κ) (l : List α) : Prop := l.Pairwise fun x y => key x < key y

/-- `r` is the item with the greatest key that is at most `q`, if there is one. -/
structure IsFloor (key : α → κ) (q : κ) (l : List α) (r : Option α) : Prop where
  found : ∀ x, r = some x → x ∈ l ∧ key x ≤ q ∧ ∀ y ∈ l, key y ≤ q → key y ≤ key x
  missing : r = none → ∀ y ∈ l, q < key y

namespace Ascending

theorem split (h : Ascending key (a ++ b)) :
    Ascending key a ∧ Ascending key b ∧ ∀ x ∈ a, ∀ y ∈ b, key x < key y :=
  List.pairwise_append.mp h

theorem around (h : Ascending key (a ++ x :: b)) :
    (∀ y ∈ a, key y < key x) ∧ ∀ y ∈ b, key x < key y := by
  obtain ⟨-, hb, hab⟩ := h.split
  exact ⟨fun y hy => hab y hy x (by simp), (List.pairwise_cons.mp hb).1⟩

theorem head_le (h : Ascending key (x :: l)) : ∀ y ∈ x :: l, key x ≤ key y := by
  intro y hy
  rcases List.mem_cons.mp hy with rfl | hy
  · exact le_rfl
  · exact le_of_lt ((List.pairwise_cons.mp h).1 y hy)

theorem insert (h : Ascending key (a ++ b)) (ha : ∀ y ∈ a, key y < key x)
    (hb : ∀ y ∈ b, key x < key y) : Ascending key (a ++ x :: b) := by
  obtain ⟨h1, h2, h3⟩ := h.split
  refine List.pairwise_append.mpr ⟨h1, List.pairwise_cons.mpr ⟨hb, h2⟩, fun y hy z hz => ?_⟩
  rcases List.mem_cons.mp hz with rfl | hz
  · exact ha y hy
  · exact h3 y hy z hz

theorem remove (h : Ascending key (a ++ x :: b)) : Ascending key (a ++ b) :=
  h.sublist (List.Sublist.append_left (List.sublist_cons_self x b) a)

/-- The keys tell the items apart. -/
theorem inj (h : Ascending key l) (hx : x ∈ l) (hy : y ∈ l) (hk : key x = key y) : x = y := by
  obtain ⟨a, b, rfl⟩ := List.append_of_mem hx
  obtain ⟨ha, hb⟩ := h.around
  rcases List.mem_append.mp hy with hy | hy
  · exact absurd hk (ne_of_gt (ha y hy))
  · rcases List.mem_cons.mp hy with rfl | hy
    · rfl
    · exact absurd hk (ne_of_lt (hb y hy))

/-- Removing the item between `a` and `b` removes just the item with its key. -/
theorem mem_remove (h : Ascending key (a ++ x :: b)) :
    y ∈ a ++ b ↔ y ∈ a ++ x :: b ∧ key y ≠ key x := by
  obtain ⟨ha, hb⟩ := h.around
  simp only [List.mem_append, List.mem_cons]
  constructor
  · rintro (hy | hy)
    · exact ⟨.inl hy, ne_of_lt (ha y hy)⟩
    · exact ⟨.inr (.inr hy), ne_of_gt (hb y hy)⟩
  · rintro ⟨hy | rfl | hy, hne⟩
    · exact .inl hy
    · exact absurd rfl hne
    · exact .inr hy

/-- An item is the floor when it is at most `q` and the items after it are above. -/
theorem floor (h : Ascending key (a ++ x :: b)) (hx : key x ≤ q) (hb : ∀ y ∈ b, q < key y) :
    IsFloor key q (a ++ x :: b) (some x) := by
  refine ⟨fun z hz => ?_, by simp⟩
  obtain rfl := Option.some.inj hz
  refine ⟨by simp, hx, fun y hy hyq => ?_⟩
  rcases List.mem_append.mp hy with hy | hy
  · exact le_of_lt (h.around.1 y hy)
  · rcases List.mem_cons.mp hy with rfl | hy
    · exact le_rfl
    · exact absurd hyq (not_le_of_gt (hb y hy))

/-- Distinct numbers below `hi` are at most `hi` many. -/
theorem length_le {key : α → Nat} : ∀ {l : List α} {lo hi : Nat}, Ascending key l →
    (∀ x ∈ l, lo ≤ key x ∧ key x < hi) → l.length ≤ hi - lo
  | [], _, _, _, _ => by simp
  | x :: l, lo, hi, h, hl => by
    obtain ⟨hx, hasc⟩ := List.pairwise_cons.mp h
    have hlen := length_le hasc fun y hy => ⟨Nat.succ_le_of_lt (hx y hy), (hl y (by simp [hy])).2⟩
    have := hl x (by simp)
    rw [List.length_cons]
    omega

end Ascending

namespace IsFloor

theorem none (h : ∀ y ∈ l, q < key y) : IsFloor key q l none :=
  ⟨by simp, fun _ => h⟩

/-- Among disjoint intervals from `key x` to `stop x`, the one that holds `q` is the floor. -/
theorem interval {r : Option α} {stop : α → κ} (h : IsFloor key q l r) (hl : Ascending key l)
    (hdisj : ∀ x ∈ l, ∀ y ∈ l, key x < key y → stop x ≤ key y) (hx : x ∈ l) (hxq : key x ≤ q)
    (hqx : q < stop x) : r = some x := by
  cases r with
  | none => exact absurd hxq (not_le_of_gt (h.missing rfl x hx))
  | some z =>
    obtain ⟨hz, hzq, hmax⟩ := h.found z rfl
    rcases lt_or_eq_of_le (hmax x hx hxq) with hlt | heq
    · exact absurd (hdisj x hx z hz hlt) (not_le_of_gt (lt_of_le_of_lt hzq hqx))
    · rw [hl.inj hx hz heq]

end IsFloor

/-! ### Maps as lists of keys and values -/

section Get

variable {ν : Type*} {m : List (κ × ν)} {blank v : ν} {k : κ}

/-- The value of a key, or `blank` when it has none. -/
def get (blank : ν) (m : List (κ × ν)) (k : κ) : ν := (m.lookup k).getD blank

theorem get_cons : get blank ((q, v) :: m) k = if k = q then v else get blank m k := by
  unfold get
  rw [List.lookup_cons]
  by_cases hk : k = q
  · rw [if_pos hk, beq_iff_eq.mpr hk]
    rfl
  · rw [if_neg hk, beq_eq_false_iff_ne.mpr hk]

theorem get_of_not_key (h : ∀ e ∈ m, e.1 ≠ k) : get blank m k = blank := by
  induction m with
  | nil => rfl
  | cons e m ih =>
    obtain ⟨q, v⟩ := e
    rw [get_cons, if_neg fun heq => h (q, v) List.mem_cons_self heq.symm]
    exact ih fun e he => h e (List.mem_cons_of_mem _ he)

theorem get_of_mem (h : Ascending Prod.fst m) {e : κ × ν} (he : e ∈ m) :
    get blank m e.1 = e.2 := by
  induction m with
  | nil => exact absurd he List.not_mem_nil
  | cons e' m ih =>
    obtain ⟨q, v⟩ := e'
    obtain ⟨hfirst, hrest⟩ := List.pairwise_cons.mp h
    rw [get_cons]
    rcases List.mem_cons.mp he with rfl | he
    · exact if_pos rfl
    · rw [if_neg (ne_of_gt (hfirst e he))]
      exact ih hrest he

end Get

end Doppelganger.Lib
