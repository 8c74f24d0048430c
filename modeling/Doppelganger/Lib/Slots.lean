import Mathlib.Data.List.Pairwise
import Mathlib.Order.Nat
import Mathlib.Tactic.Common

/-! Intervals of a timeline that keep a gap, kept in a sorted list which may forget the oldest of
them: the next one is then stretched back to the beginning. -/

namespace Doppelganger.Lib

/-- An interval, from its start to its end. -/
abbrev Interval := Nat × Nat

namespace Interval

/-- `b` starts at least `gap` after the end of `a`. -/
def Before (gap : Nat) (a b : Interval) : Prop := a.2 + gap ≤ b.1

def Apart (gap : Nat) (a b : Interval) : Prop := Before gap a b ∨ Before gap b a

def Within (a b : Interval) : Prop := b.1 ≤ a.1 ∧ a.2 ≤ b.2

/-- One of the intervals of `l` holds `a`. -/
def Covered (l : List Interval) (a : Interval) : Prop := ∃ b ∈ l, Within a b

instance (gap : Nat) (a b : Interval) : Decidable (Before gap a b) :=
  inferInstanceAs (Decidable (_ ≤ _))

instance (gap : Nat) (a b : Interval) : Decidable (Apart gap a b) :=
  inferInstanceAs (Decidable (_ ∨ _))

variable {gap : Nat} {a b c : Interval} {l : List Interval}

theorem Within.refl (a : Interval) : Within a a := ⟨le_rfl, le_rfl⟩

theorem Apart.symm (h : Apart gap a b) : Apart gap b a := Or.symm h

theorem Apart.within (h : Apart gap a b) (hc : Within c b) : Apart gap a c := by
  obtain ⟨hlow, hhigh⟩ := hc
  rcases h with h | h
  · exact .inl (le_trans h hlow)
  · exact .inr (le_trans (Nat.add_le_add_right hhigh gap) h)

/-- An interval that keeps the gap from those of `l` keeps it from all that they hold. -/
theorem Covered.apart (h : Covered l c) (hl : ∀ b ∈ l, Apart gap a b) : Apart gap a c := by
  obtain ⟨b, hb, hwithin⟩ := h
  exact (hl b hb).within hwithin

/-- Sorted intervals that keep the gap are one after the other. -/
theorem pairwise_before (hlen : ∀ a ∈ l, a.1 ≤ a.2)
    (hsorted : l.Pairwise fun a b => a.1 < b.1 ∨ a.1 = b.1 ∧ a.2 ≤ b.2)
    (hapart : l.Pairwise (Apart gap)) : l.Pairwise (Before gap) := by
  refine (hsorted.and hapart).imp_of_mem fun {a b} ha hb h => ?_
  obtain ⟨horder, h | h⟩ := h
  · exact h
  · have hlenA := hlen a ha
    have hlenB := hlen b hb
    unfold Before at h ⊢
    omega

/-! ### Forgetting the oldest -/

variable {oldest : Interval} {rest : List Interval}

theorem forget_before (h : (a :: oldest :: rest).Pairwise (Before gap)) :
    ((0, oldest.2) :: rest).Pairwise (Before gap) := by
  obtain ⟨-, h⟩ := List.pairwise_cons.mp h
  obtain ⟨holdest, hrest⟩ := List.pairwise_cons.mp h
  exact List.pairwise_cons.mpr ⟨holdest, hrest⟩

theorem forget_covered (h : (a :: oldest :: rest).Pairwise (Before gap))
    (hlen : oldest.1 ≤ oldest.2) (hc : Covered (a :: oldest :: rest) c) :
    Covered ((0, oldest.2) :: rest) c := by
  have hfirst : a.2 + gap ≤ oldest.1 := (List.pairwise_cons.mp h).1 oldest (by simp)
  obtain ⟨b, hb, hwithin⟩ := hc
  rcases List.mem_cons.mp hb with rfl | hb
  · exact ⟨_, List.mem_cons_self, Nat.zero_le _, by have := hwithin.2; dsimp only; omega⟩
  rcases List.mem_cons.mp hb with rfl | hb
  · exact ⟨_, List.mem_cons_self, Nat.zero_le _, hwithin.2⟩
  · exact ⟨b, List.mem_cons_of_mem _ hb, hwithin⟩

end Interval

end Doppelganger.Lib
