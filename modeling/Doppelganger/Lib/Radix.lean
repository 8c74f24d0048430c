import Mathlib.Order.Basic
import Mathlib.Data.Nat.Init

/-! Numbers in mixed radix.  The digits of a number are peeled off from the lowest one on, each with
its own radix; what is left at the end has no bound.  Digits and rest determine the number, and each
of them can be lowered without a change to the others. -/

namespace Doppelganger.Lib.Radix

variable {ι : Type*} [DecidableEq ι] (radix : ι → ℕ)

/-- The digit `i` of a number whose digits are those of the list, from the lowest one on. -/
def digit : List ι → ι → ℕ → ℕ
  | [], _, _ => 0
  | j :: js, i, a => if i = j then a % radix j else digit js i (a / radix j)

/-- What is left of a number after its digits. -/
def rest : List ι → ℕ → ℕ
  | [], a => a
  | j :: js, a => rest js (a / radix j)

variable {radix} {order : List ι} {i j : ι} {a b v : ℕ}

theorem digit_cons_of_ne (h : i ≠ j) :
    digit radix (j :: order) i a = digit radix order i (a / radix j) := if_neg h

/-- The digits and the rest determine the number. -/
theorem eq_of_digits (hnodup : order.Nodup)
    (h : ∀ i ∈ order, digit radix order i a = digit radix order i b)
    (hrest : rest radix order a = rest radix order b) : a = b := by
  induction order generalizing a b with
  | nil => exact hrest
  | cons j js ih =>
    obtain ⟨hj, hjs⟩ := List.nodup_cons.mp hnodup
    have hlow : a % radix j = b % radix j := by
      have hdigit := h j List.mem_cons_self
      rwa [digit, digit, if_pos rfl, if_pos rfl] at hdigit
    have hhigh : a / radix j = b / radix j := by
      apply ih hjs (fun i hi => ?_) hrest
      have hne : i ≠ j := fun heq => hj (heq ▸ hi)
      have hdigit := h i (List.mem_cons_of_mem j hi)
      rwa [digit_cons_of_ne hne, digit_cons_of_ne hne] at hdigit
    calc a = radix j * (a / radix j) + a % radix j := (Nat.div_add_mod _ _).symm
      _ = radix j * (b / radix j) + b % radix j := by rw [hlow, hhigh]
      _ = b := Nat.div_add_mod _ _

theorem mul_div_add_le (r : ℕ) (h : b ≤ a / r) (hv : v ≤ a % r) : r * b + v ≤ a := by
  calc r * b + v ≤ r * (a / r) + a % r := Nat.add_le_add (Nat.mul_le_mul_left r h) hv
    _ = a := Nat.div_add_mod _ _

/-- The quotient and the remainder of a number that is put together from them. -/
theorem put_together (r : ℕ) (h : b ≤ a / r) (hv : v ≤ a % r) :
    (r * b + v) / r = b ∧ (r * b + v) % r = v := by
  obtain rfl | hr := Nat.eq_zero_or_pos r
  · rw [Nat.div_zero, Nat.le_zero] at h
    simp [h]
  · have hlt : v < r := Nat.lt_of_le_of_lt hv (Nat.mod_lt _ hr)
    rw [Nat.mul_add_div hr, Nat.mul_add_mod, Nat.div_eq_of_lt hlt, Nat.mod_eq_of_lt hlt]
    exact ⟨rfl, rfl⟩

/-- A lower rest with the same digits. -/
theorem lower_rest (hv : v ≤ rest radix order a) : ∃ b ≤ a, rest radix order b = v ∧
    ∀ i, digit radix order i b = digit radix order i a := by
  induction order generalizing a with
  | nil => exact ⟨v, hv, rfl, fun _ => rfl⟩
  | cons j js ih =>
    obtain ⟨b, hb, hrest, hdigits⟩ := ih hv
    obtain ⟨hdiv, hmod⟩ := put_together (radix j) hb (Nat.le_refl _)
    refine ⟨radix j * b + a % radix j, mul_div_add_le _ hb (Nat.le_refl _), ?_, fun i => ?_⟩
    · rw [rest, hdiv, hrest]
    · rw [digit, digit, hdiv, hmod, hdigits i]

/-- A lower digit with the other ones and the rest as they are. -/
theorem lower_digit (hi : i ∈ order) (hv : v ≤ digit radix order i a) :
    ∃ b ≤ a, digit radix order i b = v ∧ rest radix order b = rest radix order a ∧
      ∀ k, k ≠ i → digit radix order k b = digit radix order k a := by
  induction order generalizing a with
  | nil => exact absurd hi List.not_mem_nil
  | cons j js ih =>
    by_cases hij : i = j
    · subst hij
      rw [digit, if_pos rfl] at hv
      obtain ⟨hdiv, hmod⟩ := put_together (radix i) (Nat.le_refl _) hv
      refine ⟨radix i * (a / radix i) + v, mul_div_add_le _ (Nat.le_refl _) hv, ?_, ?_,
        fun k hk => ?_⟩
      · rw [digit, if_pos rfl, hmod]
      · rw [rest, rest, hdiv]
      · rw [digit_cons_of_ne hk, digit_cons_of_ne hk, hdiv]
    · rw [digit_cons_of_ne hij] at hv
      obtain ⟨b, hb, hdigit, hrest, hothers⟩ :=
        ih ((List.mem_cons.mp hi).resolve_left hij) hv
      obtain ⟨hdiv, hmod⟩ := put_together (radix j) hb (Nat.le_refl _)
      refine ⟨radix j * b + a % radix j, mul_div_add_le _ hb (Nat.le_refl _), ?_, ?_,
        fun k hk => ?_⟩
      · rw [digit_cons_of_ne hij, hdiv, hdigit]
      · rw [rest, hdiv, hrest]
        rfl
      · rw [digit, digit, hdiv, hmod, hothers k hk]

end Doppelganger.Lib.Radix
