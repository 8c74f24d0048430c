import Doppelganger.Lib.Tally
import Mathlib.Logic.Function.Basic

/-! Counters that are charged late.  Each of `n` things has an owner, and counts something that is
pending until it is charged to an account.  The accounts balance while each has earned what it was
charged with and what is pending on the things that it owns. -/

namespace Doppelganger.Lib

open Function

variable {κ : Type*} [DecidableEq κ]

/-- What is pending on the things that `k` owns. -/
def owed (n : ℕ) (owner : ℕ → κ) (pending : ℕ → ℕ) (k : κ) : ℕ :=
  ∑ c ∈ Finset.range n, if owner c = k then pending c else 0

def Balanced (n : ℕ) (owner : ℕ → κ) (pending : ℕ → ℕ) (charged earned : κ → ℕ) : Prop :=
  ∀ k, earned k = charged k + owed n owner pending k

variable {n c d charge : ℕ} {owner owner' : ℕ → κ} {pending pending' : ℕ → ℕ}
  {charged charged' earned earned' : κ → ℕ}

theorem owed_zero (h : ∀ i < n, pending i = 0) (k : κ) : owed n owner pending k = 0 := by
  refine Finset.sum_eq_zero fun i hi => ?_
  rw [h i (Finset.mem_range.mp hi), ite_self]

/-- When only what is pending on `c` changes, what its owner is owed changes with it. -/
theorem owed_pending (owner : ℕ → κ) (hc : c < n) (h : ∀ i < n, i ≠ c → pending' i = pending i)
    (hchange : pending' c + charge = pending c + d) (k : κ) :
    owed n owner pending' k + (if owner c = k then charge else 0) =
      owed n owner pending k + if owner c = k then d else 0 := by
  have hsum := sum_changed (f := fun i => if owner i = k then pending i else 0)
    (g := fun i => if owner i = k then pending' i else 0) hc fun i hi hne => by rw [h i hi hne]
  unfold owed
  by_cases hown : owner c = k
  · simp only [if_pos hown] at hsum ⊢
    omega
  · simpa only [if_neg hown] using hsum

theorem owed_update_add (owner : ℕ → κ) (pending : ℕ → ℕ) (hc : c < n) (d : ℕ) (k : κ) :
    owed n owner (update pending c (pending c + d)) k =
      owed n owner pending k + if owner c = k then d else 0 := by
  have hchange : update pending c (pending c + d) c + 0 = pending c + d := by
    rw [update_self, Nat.add_zero]
  have howed := owed_pending owner hc (fun i _ hne => update_of_ne hne (pending c + d) pending)
    hchange k
  rwa [ite_self, Nat.add_zero] at howed

theorem owed_owner (pending : ℕ → ℕ) (hc : c < n)
    (h : ∀ i < n, i ≠ c → owner' i = owner i) (k : κ) :
    owed n owner' pending k + (if owner c = k then pending c else 0) =
      owed n owner pending k + if owner' c = k then pending c else 0 := by
  apply sum_changed (f := fun i => if owner i = k then pending i else 0) hc
  intro i hi hne
  rw [h i hi hne]

namespace Balanced

/-- What a thing counts is earned by its owner. -/
theorem accrue (h : Balanced n owner pending charged earned) (hc : c < n)
    (hpending : ∀ i < n, i ≠ c → pending' i = pending i) (hmore : pending' c = pending c + d)
    (hearned : ∀ k, earned' k = earned k + if owner c = k then d else 0) :
    Balanced n owner pending' charged earned' := by
  have hchange : pending' c + 0 = pending c + d := hmore
  intro k
  have howed := owed_pending owner hc hpending hchange k
  rw [ite_self, Nat.add_zero] at howed
  rw [hearned k, h k, howed, Nat.add_assoc]

/-- What is pending on a thing is charged to its owner. -/
theorem settle (h : Balanced n owner pending charged earned) (hc : c < n)
    (hpending : ∀ i < n, i ≠ c → pending' i = pending i) (hzero : pending' c = 0)
    (hcharged : ∀ k, charged' k = charged k + if owner c = k then pending c else 0) :
    Balanced n owner pending' charged' earned := by
  have hchange : pending' c + pending c = pending c + 0 := by rw [hzero, Nat.zero_add, Nat.add_zero]
  intro k
  have howed := owed_pending owner hc hpending hchange k
  rw [ite_self, Nat.add_zero] at howed
  rw [hcharged k, h k, ← howed, Nat.add_assoc, Nat.add_comm (owed n owner pending' k)]

/-- A thing may change hands exactly when nothing is pending on it. -/
theorem transfer_iff (h : Balanced n owner pending charged earned) (hc : c < n)
    (howner : ∀ i < n, i ≠ c → owner' i = owner i) :
    Balanced n owner' pending charged earned ↔ pending c = 0 ∨ owner' c = owner c := by
  constructor
  case mp =>
    intro h'
    by_contra hnot
    obtain ⟨hpending, hne⟩ := not_or.mp hnot
    have howed := owed_owner pending hc howner (owner c)
    rw [if_pos rfl, if_neg hne] at howed
    have hk := h (owner c)
    have hk' := h' (owner c)
    omega
  case mpr =>
    intro hsame k
    have howed := owed_owner pending hc howner k
    rw [h k]
    rcases hsame with hzero | hsame
    · simp only [hzero, ite_self] at howed
      omega
    · rw [hsame] at howed
      omega

theorem settled (h : Balanced n owner pending charged earned) (hzero : ∀ i < n, pending i = 0)
    (k : κ) : earned k = charged k := by
  rw [h k, owed_zero hzero, Nat.add_zero]

end Balanced

/-! ### Totals -/

/-- All that is pending is owed to some account. -/
theorem sum_owed {m : ℕ} {owner : ℕ → ℕ} (h : ∀ i < n, owner i < m) :
    ∑ k ∈ Finset.range m, owed n owner pending k = ∑ i ∈ Finset.range n, pending i := by
  unfold owed
  rw [Finset.sum_comm]
  refine sum_unchanged fun i hi => ?_
  rw [Finset.sum_ite_eq, if_pos (Finset.mem_range.mpr (h i hi))]

theorem sum_update_add (f : ℕ → ℕ) (hc : c < n) (d : ℕ) :
    ∑ i ∈ Finset.range n, update f c (f c + d) i = ∑ i ∈ Finset.range n, f i + d := by
  have hsum := sum_changed (f := f) (g := update f c (f c + d)) hc
    fun i _ hne => (update_of_ne hne _ _).symm
  rw [update_self] at hsum
  omega

end Doppelganger.Lib
