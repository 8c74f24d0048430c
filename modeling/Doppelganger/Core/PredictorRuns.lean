import Doppelganger.Core.BranchPredictor
import Mathlib.Data.Nat.Bitwise

/-! A branch whose outcomes repeat is predicted: the last outcomes are in the index of its counter,
so that the counters of the branch are trained by one outcome each. -/

namespace Doppelganger.Core.BranchPredictor

open Function

variable {z : PredictorSizes} {pc : Address} {o : ℕ → Bool} {s : BranchPredictor} {n t u i j k : ℕ}

/-- The predictor after the branch has been executed `t` times, with the outcomes `o`. -/
def after (z : PredictorSizes) (pc : Address) (o : ℕ → Bool) (s : BranchPredictor) :
    ℕ → BranchPredictor
  | 0 => s
  | t + 1 => (after z pc o s t).update z pc (o t)

/-- The history of the branch then, and the index of its counter. -/
def history (z : PredictorSizes) (pc : Address) (o : ℕ → Bool) (s : BranchPredictor) (t : ℕ) :
    UInt32 :=
  (after z pc o s t).bhsr (bhsrIdx z pc)

def counterIdx (z : PredictorSizes) (pc : Address) (o : ℕ → Bool) (s : BranchPredictor) (t : ℕ) :
    ℕ :=
  phtIdx z (history z pc o s t)

/-! ### The history -/

theorem mask_toNat : ∀ i < 32, (mask i).toNat = 2 ^ i - 1 := by decide

theorem toUInt32_mod : ∀ i < 32, i.toUInt32.toNat % 32 = i := by decide

theorem testBit_mask (h : i < 32) (k : ℕ) : (mask i).toNat.testBit k = decide (k < i) := by
  rw [mask_toNat i h, Nat.testBit_two_pow_sub_one]

/-- The last outcome is the lowest bit. -/
theorem testBit_shift_zero (taken : Bool) (h : UInt32) :
    (shift z taken h).toNat.testBit 0 = taken := by
  unfold shift
  rw [UInt32.toNat_or, UInt32.toNat_and, UInt32.toNat_shiftLeft, Nat.testBit_or, Nat.testBit_and,
    Nat.testBit_mod_two_pow, Nat.testBit_shiftLeft]
  cases taken <;> simp

/-- An outcome pushes the others one place up. -/
theorem testBit_shift_succ (taken : Bool) (h : UInt32) (k : ℕ) :
    (shift z taken h).toNat.testBit (k + 1) = (decide (k + 1 < z.HB) && h.toNat.testBit k) := by
  have hlt := z.lt
  unfold shift
  rw [UInt32.toNat_or, UInt32.toNat_and, UInt32.toNat_shiftLeft, Nat.testBit_or, Nat.testBit_and,
    Nat.testBit_mod_two_pow, Nat.testBit_shiftLeft, testBit_mask hlt]
  have htaken : (if taken then (1 : UInt32) else 0).toNat.testBit (k + 1) = false := by
    cases taken
    · exact Nat.zero_testBit _
    · exact Bool.eq_false_iff.mpr
        (Nat.testBit_one_eq_true_iff_self_eq_zero.not.mpr (Nat.succ_ne_zero k))
  rw [htaken, Bool.or_false]
  by_cases hk : k + 1 < z.HB
  · have h32 : k + 1 < 32 := by omega
    simp [hk, h32]
  · simp [hk]

theorem testBit_not_mask (h : i < 32) (hk : k < i) : (~~~mask i).toNat.testBit k = false := by
  have hmask := (mask i).toNat_lt
  rw [UInt32.toNat_not, show UInt32.size - 1 - (mask i).toNat = 2 ^ 32 - ((mask i).toNat + 1) by
    change 2 ^ 32 - 1 - _ = _
    omega, Nat.testBit_two_pow_sub_succ hmask, testBit_mask h]
  simp [hk]

/-- The low bits of the index are those of the history, below the ones that are folded. -/
theorem testBit_phtIdx (h : UInt32) (hk : k < 2 * z.LB - z.HB) :
    (phtIdx z h).testBit k = h.toNat.testBit k := by
  have hlt := z.lt
  have hle := z.le
  unfold phtIdx
  rw [UInt32.toNat_and, UInt32.toNat_xor, UInt32.toNat_shiftRight, toUInt32_mod _ (by omega),
    UInt32.toNat_and, Nat.testBit_and, Nat.testBit_xor, Nat.testBit_shiftRight, Nat.testBit_and,
    testBit_mask (by omega), testBit_not_mask (by omega) (by omega), Bool.and_false,
    Bool.xor_false, decide_eq_true (by omega), Bool.and_true]

theorem history_succ (t : ℕ) : history z pc o s (t + 1) = shift z (o t) (history z pc o s t) :=
  update_self ..

/-- The history has the last outcomes. -/
theorem testBit_history (hk : k < z.HB) (ht : k < t) :
    (history z pc o s t).toNat.testBit k = o (t - 1 - k) := by
  induction k generalizing t with
  | zero =>
    obtain ⟨t, rfl⟩ := Nat.exists_eq_succ_of_ne_zero (Nat.pos_iff_ne_zero.mp ht)
    rw [Nat.succ_eq_add_one, history_succ, testBit_shift_zero]
    rfl
  | succ k ih =>
    obtain ⟨t, rfl⟩ := Nat.exists_eq_succ_of_ne_zero (Nat.pos_iff_ne_zero.mp (Nat.zero_lt_of_lt ht))
    rw [Nat.succ_eq_add_one, history_succ, testBit_shift_succ, decide_eq_true hk, Bool.true_and,
      ih (by omega) (by omega)]
    congr 1
    omega

/-- Above them it is empty. -/
theorem testBit_history_ge (hk : z.HB ≤ k) (hpos : 0 < z.HB) (ht : 0 < t) :
    (history z pc o s t).toNat.testBit k = false := by
  obtain ⟨t, rfl⟩ := Nat.exists_eq_succ_of_ne_zero (Nat.pos_iff_ne_zero.mp ht)
  obtain ⟨k, rfl⟩ := Nat.exists_eq_succ_of_ne_zero (show k ≠ 0 by omega)
  rw [Nat.succ_eq_add_one, history_succ, testBit_shift_succ, decide_eq_false (by omega),
    Bool.false_and]

/-! ### A periodic branch -/

/-- The outcomes repeat after `n`, which the low bits of the index cover. -/
structure Periodic (z : PredictorSizes) (o : ℕ → Bool) (n : ℕ) : Prop where
  pos : 0 < n
  covered : n ≤ 2 * z.LB - z.HB
  period : ∀ t, o (t + n) = o t

theorem Periodic.lt_HB (h : Periodic z o n) : n ≤ z.HB := by
  have := h.covered
  have := z.le
  omega

/-- A period later, the index is the same. -/
theorem Periodic.counterIdx_eq (h : Periodic z o n) (ht : z.HB ≤ t) :
    counterIdx z pc o s (t + n) = counterIdx z pc o s t := by
  have hpos := h.pos
  have hHB := h.lt_HB
  refine congrArg (phtIdx z) (UInt32.toNat_inj.mp (Nat.eq_of_testBit_eq fun k => ?_))
  by_cases hk : k < z.HB
  · rw [testBit_history hk (by omega), testBit_history hk (by omega),
      show t + n - 1 - k = t - 1 - k + n by omega, h.period]
  · rw [testBit_history_ge (by omega) (by omega) (by omega),
      testBit_history_ge (by omega) (by omega) (by omega)]

/-- Where the index is the same, so is the outcome. -/
theorem Periodic.outcome_eq (h : Periodic z o n) (ht : z.HB ≤ t) (hu : z.HB ≤ u)
    (hidx : counterIdx z pc o s t = counterIdx z pc o s u) : o t = o u := by
  have hpos := h.pos
  have hcov := h.covered
  have hHB := h.lt_HB
  -- the outcome a period ago is a bit of the index
  have hbit (t : ℕ) (ht : z.HB ≤ t) : (counterIdx z pc o s t).testBit (n - 1) = o t := by
    rw [counterIdx, testBit_phtIdx _ (by omega), testBit_history (by omega) (by omega),
      ← h.period, show t - 1 - (n - 1) + n = t by omega]
  rw [← hbit t ht, ← hbit u hu, hidx]

/-- A counter that has been trained by the outcome `b` up to `k` times, of which two suffice. -/
def Trained (b : Bool) : ℕ → ℕ → Prop
  | 0, counter => counter ≤ 3
  | 1, counter => counter ≤ 3 ∧ if b then 1 ≤ counter else counter ≤ 2
  | _ + 2, counter => counter ≤ 3 ∧ if b then 2 ≤ counter else counter ≤ 1

theorem Trained.count {b : Bool} {counter : ℕ} (h : Trained b k counter) :
    Trained b (k + 1) (count b (1 < counter) counter) := by
  match k, b with
  | 0, true | 0, false | 1, true | 1, false | k + 2, true | k + 2, false =>
    simp only [Trained, BranchPredictor.count] at h ⊢
    by_cases hpred : 1 < counter
    all_goals simp [hpred] at h ⊢
    all_goals omega

theorem Trained.of_succ {b : Bool} {counter : ℕ} (h : Trained b (k + 1) counter) :
    Trained b k counter := by
  match k, b with
  | 0, true | 0, false => exact h.1
  | 1, true | 1, false | k + 2, true | k + 2, false =>
    simp only [Trained] at h ⊢
    simp at h ⊢
    omega

/-- The counter of an index, after as many executions. -/
def counterAt (z : PredictorSizes) (pc : Address) (o : ℕ → Bool) (s : BranchPredictor) (t j : ℕ) :
    ℕ :=
  (after z pc o s t).pht j

theorem counterAt_succ (t : ℕ) : counterAt z pc o s (t + 1) (counterIdx z pc o s t) =
    count (o t) (1 < counterAt z pc o s t (counterIdx z pc o s t))
      (counterAt z pc o s t (counterIdx z pc o s t)) :=
  update_self ..

theorem counterAt_succ_of_ne (hj : j ≠ counterIdx z pc o s t) :
    counterAt z pc o s (t + 1) j = counterAt z pc o s t j :=
  update_of_ne hj ..

/-- Training is not lost, since the outcome is the same wherever the index is. -/
theorem Periodic.keep (h : Periodic z o n) (ht : z.HB ≤ t) (hu : z.HB ≤ u)
    (htrained : Trained (o u) k (counterAt z pc o s t (counterIdx z pc o s u))) :
    Trained (o u) k (counterAt z pc o s (t + 1) (counterIdx z pc o s u)) := by
  by_cases hidx : counterIdx z pc o s u = counterIdx z pc o s t
  · rw [hidx, counterAt_succ, h.outcome_eq hu ht hidx]
    rw [hidx, h.outcome_eq hu ht hidx] at htrained
    exact htrained.count.of_succ
  · rwa [counterAt_succ_of_ne hidx]

theorem Periodic.keepAll (h : Periodic z o n) (ht : z.HB ≤ t) (hu : z.HB ≤ u)
    (htrained : Trained (o u) k (counterAt z pc o s t (counterIdx z pc o s u))) (m : ℕ) :
    Trained (o u) k (counterAt z pc o s (t + m) (counterIdx z pc o s u)) := by
  induction m with
  | zero => exact htrained
  | succ m ih => exact h.keep (show z.HB ≤ t + m by omega) hu ih

/-- A period later, the counter has been trained once more. -/
theorem Periodic.train (h : Periodic z o n) (ht : z.HB ≤ t)
    (htrained : Trained (o t) k (counterAt z pc o s t (counterIdx z pc o s t))) :
    Trained (o (t + n)) (k + 1) (counterAt z pc o s (t + n) (counterIdx z pc o s (t + n))) := by
  have hpos := h.pos
  rw [h.period, h.counterIdx_eq ht]
  have hnext := htrained.count
  rw [← counterAt_succ] at hnext
  have hall := h.keepAll (show z.HB ≤ t + 1 by omega) ht hnext (n - 1)
  rwa [show t + 1 + (n - 1) = t + n by omega] at hall

theorem counterAt_le (hs : ∀ j, s.pht j ≤ 3) (t j : ℕ) : counterAt z pc o s t j ≤ 3 := by
  induction t with
  | zero => exact hs j
  | succ t ih =>
    by_cases hj : j = counterIdx z pc o s t
    · rw [hj, counterAt_succ]
      rw [hj] at ih
      exact (Trained.count (b := o t) (k := 0) ih).1
    · rwa [counterAt_succ_of_ne hj]

end Doppelganger.Core.BranchPredictor

namespace Doppelganger.Core

open BranchPredictor

/-- From any state of the predictor, a branch whose outcomes repeat after as many executions as the
index has bits of the history that are not folded, or less, is not mispredicted any more once the
history is full and each outcome of the period has come twice. -/
theorem periodic_predicted (z : PredictorSizes) (pc : Address) {s : BranchPredictor}
    (hs : ∀ j, s.pht j ≤ 3) {o : ℕ → Bool} {n : ℕ} (h : Periodic z o n) {t : ℕ}
    (ht : z.HB + 2 * n ≤ t) : (after z pc o s t).predicts z pc = o t := by
  have hfirst : Trained (o (t - n - n)) 0
      (counterAt z pc o s (t - n - n) (counterIdx z pc o s (t - n - n))) := counterAt_le hs _ _
  have hsecond := h.train (by omega) hfirst
  rw [Nat.sub_add_cancel (by omega)] at hsecond
  have hthird := h.train (by omega) hsecond
  rw [Nat.sub_add_cancel (by omega)] at hthird
  change decide (1 < counterAt z pc o s t (counterIdx z pc o s t)) = o t
  cases hout : o t
  · have := (hout ▸ hthird).2
    simp at this
    simp
    omega
  · have := (hout ▸ hthird).2
    simp at this
    simp
    omega

/-- A loop of three iterations: the branch is taken twice. -/
theorem periodic_predicted_loop :
    (after .ooo 0x400 (fun t => t % 3 ≠ 2) .init 101).predicts .ooo 0x400 = false := by
  have h : Periodic .ooo (fun t => t % 3 ≠ 2) 3 :=
    ⟨by decide, by decide, fun t => by simp only [Nat.add_mod_right]⟩
  exact periodic_predicted .ooo 0x400 (fun _ => Nat.le_of_ble_eq_true rfl) h (by decide)

end Doppelganger.Core
