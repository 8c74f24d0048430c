import Mathlib.Data.List.Perm.Basic
import Mathlib.Order.Lattice
import Mathlib.Data.List.Pairwise

/-! The largest of the values seen so far.  A list that holds the `n` largest of them, the smallest
one first, keeps holding them when a value that is not below its head takes the place of the head.
When each value is at least `d` above the one whose place it takes, in any order, at most `n` values
are in any window of length `d`. -/

namespace Doppelganger.Lib

open List

variable {α : Type*} [LinearOrder α]

/-- `top` holds the largest values of `all`, in ascending order. -/
structure Largest (all top : List α) : Prop where
  sorted : top.Pairwise (· ≤ ·)
  split : ∃ rest, (rest ++ top).Perm all ∧ ∀ a ∈ rest, ∀ b ∈ top, a ≤ b

/-- `m` is the `n`-th largest value of `all`: fewer than `n` are above it, and `n` are not below. -/
structure NthLargest (n : ℕ) (m : α) (all : List α) : Prop where
  above : all.countP (m < ·) < n
  atLeast : n ≤ all.countP (m ≤ ·)

variable {all t pre suf new : List α} {a x y : α} {n : ℕ}

theorem pairwise_insert (h : (pre ++ y :: suf).Pairwise (· ≤ ·)) (hy : y ≤ x)
    (hsuf : ∀ z ∈ suf, x < z) : (pre ++ y :: x :: suf).Pairwise (· ≤ ·) := by
  obtain ⟨hpre, htail, hcross⟩ := pairwise_append.mp h
  obtain ⟨hysuf, hsorted⟩ := pairwise_cons.mp htail
  apply pairwise_append.mpr
  refine ⟨hpre, ?_, fun b hb c hc => ?_⟩
  · apply pairwise_cons.mpr
    refine ⟨fun c hc => ?_, pairwise_cons.mpr ⟨fun z hz => (hsuf z hz).le, hsorted⟩⟩
    obtain rfl | hc := mem_cons.mp hc
    · exact hy
    · exact hysuf c hc
  · obtain rfl | hc := mem_cons.mp hc
    · exact hcross b hb c (by simp)
    obtain rfl | hc := mem_cons.mp hc
    · exact (hcross b hb y (by simp)).trans hy
    · exact hcross b hb c (by simp [hc])

/-- The last value of a list that is not above `x`, if there is one. -/
theorem split_last_le (x : α) (l : List α) : (∀ z ∈ l, x < z) ∨
    ∃ pre y suf, l = pre ++ y :: suf ∧ y ≤ x ∧ ∀ z ∈ suf, x < z := by
  induction l with
  | nil => exact .inl (by simp)
  | cons b l ih =>
    obtain h | ⟨pre, y, suf, rfl, hy, hsuf⟩ := ih
    · obtain hb | hb := le_or_gt b x
      · exact .inr ⟨[], b, l, rfl, hb, h⟩
      · exact .inl fun z hz => (mem_cons.mp hz).elim (fun hz => hz ▸ hb) (h z)
    · exact .inr ⟨b :: pre, y, suf, rfl, hy, hsuf⟩

namespace Largest

theorem self (h : all.Pairwise (· ≤ ·)) : Largest all all where
  sorted := h
  split := ⟨[], Perm.refl _, by simp⟩

/-- A new value that is not below the smallest of them takes its place. -/
theorem replace (h : Largest all (a :: t)) (hx : a ≤ x) (hperm : new.Perm (x :: t))
    (hsorted : new.Pairwise (· ≤ ·)) : Largest (x :: all) new where
  sorted := hsorted
  split := by
    obtain ⟨rest, hrest, hle⟩ := h.split
    have ha := (pairwise_cons.mp h.sorted).1
    refine ⟨a :: rest, ?_, fun b hb c hc => ?_⟩
    · calc a :: rest ++ new
          _ ~ a :: rest ++ x :: t := hperm.append_left _
          _ ~ x :: (a :: rest ++ t) := perm_middle
          _ ~ x :: (rest ++ a :: t) := (perm_middle.symm).cons x
          _ ~ x :: all := hrest.cons x
    · have hc := hperm.mem_iff.mp hc
      have hac : a ≤ c := by
        obtain rfl | hc := mem_cons.mp hc
        · exact hx
        · exact ha c hc
      obtain rfl | hb := mem_cons.mp hb
      · exact hac
      · exact (hle b hb a (by simp)).trans hac

theorem head (h : Largest all (a :: t)) : NthLargest (t.length + 1) a all where
  above := by
    obtain ⟨rest, hrest, hle⟩ := h.split
    have hnone : rest.countP (a < ·) = 0 :=
      countP_eq_zero.mpr fun b hb => by simpa using hle b hb a (by simp)
    rw [← hrest.countP_eq, countP_append, hnone, countP_cons_of_neg (by simp)]
    have := countP_le_length (p := (a < ·)) (l := t)
    omega
  atLeast := by
    obtain ⟨rest, hrest, -⟩ := h.split
    have ha := (pairwise_cons.mp h.sorted).1
    have hall : (a :: t).countP (a ≤ ·) = t.length + 1 :=
      countP_eq_length.mpr fun b hb => by
        obtain rfl | hb := mem_cons.mp hb
        · simp
        · simpa using ha b hb
    rw [← hrest.countP_eq, countP_append, hall]
    omega

/-- A value that is no longer among the largest ones is not above any of them. -/
theorem mem_or_le (h : Largest all (a :: t)) (hx : x ∈ all) : x ∈ a :: t ∨ x ≤ a := by
  obtain ⟨rest, hrest, hle⟩ := h.split
  obtain hx | hx := mem_append.mp (hrest.mem_iff.mpr hx)
  · exact .inr (hle x hx a (by simp))
  · exact .inl hx

theorem subset (h : Largest all t) (hx : x ∈ t) : x ∈ all := by
  obtain ⟨rest, hrest, -⟩ := h.split
  exact hrest.mem_iff.mp (mem_append_right _ hx)

theorem of_perm {all' : List α} (h : Largest all t) (hperm : all.Perm all') : Largest all' t where
  sorted := h.sorted
  split := by
    obtain ⟨rest, hrest, hle⟩ := h.split
    exact ⟨rest, hrest.trans hperm, hle⟩

end Largest

/-! ### Windows -/

/-- How many values of `seen` are in the window of length `d` from `start` on is at most how many
of `held` are not before it. -/
def Covers (d : ℕ) (seen held : List ℕ) : Prop :=
  ∀ start, seen.countP (fun k => start ≤ k ∧ k < start + d) ≤ held.countP (start ≤ ·)

namespace Covers

variable {d k m : ℕ} {seen held rest held' : List ℕ}

theorem countP_le (h : Covers d seen held) (start : ℕ) :
    seen.countP (fun k => start ≤ k ∧ k < start + d) ≤ held.length :=
  (h start).trans countP_le_length

/-- A value that is at least `d` above the one whose place it takes. -/
theorem replace (h : Covers d seen held) (hheld : held.Perm (m :: rest)) (hk : m + d ≤ k)
    (hheld' : held'.Perm (k :: rest)) : Covers d (seen ++ [k]) held' := by
  intro start
  have hold := h start
  rw [hheld.countP_eq, countP_cons] at hold
  rw [hheld'.countP_eq, countP_cons, countP_append, countP_singleton]
  by_cases hin : start ≤ k ∧ k < start + d
  · have hm : ¬ start ≤ m := by omega
    simp only [hin, hm, decide_true, decide_false, if_true, and_self, Bool.false_eq_true,
      if_false] at hold ⊢
    omega
  · have hnew : (start ≤ m) → start ≤ k := by omega
    simp only [hin, decide_false, Bool.false_eq_true, if_false]
    by_cases hm : start ≤ m
    · simp only [hm, hnew hm, decide_true, if_true] at hold ⊢
      omega
    · simp only [hm, decide_false, Bool.false_eq_true, if_false] at hold
      omega

end Covers

end Doppelganger.Lib
