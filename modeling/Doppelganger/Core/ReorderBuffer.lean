import Doppelganger.Lib.InOrder
import Mathlib.Order.Basic
import Mathlib.Tactic.ByContra

/-! `ReorderBuffer` of `ooo_core.h`.  `curCycleRetires` counts the retirements of the current cycle
when the clock has advanced to it; it is one too small in a cycle that a full bundle has spilled to,
and one too large in cycle 0. -/

namespace Doppelganger.Core

open Lib Function

/-- `ReorderBuffer<SZ, W>`; the first `SZ` entries of `buf` count. -/
structure ReorderBuffer where
  buf : ℕ → UInt64
  curRetireCycle : UInt64
  curCycleRetires : ℕ
  idx : ℕ

namespace ReorderBuffer

def start : ReorderBuffer := ⟨fun _ => 0, 0, 1, 0⟩

def minAllocCycle (s : ReorderBuffer) : UInt64 := s.buf s.idx

/-- The two branches of `markRetire`. -/
def retire (W : ℕ) (minRetireCycle : UInt64) (s : ReorderBuffer) : ReorderBuffer :=
  if minRetireCycle ≤ s.curRetireCycle then
    -- retire with bundle
    if s.curCycleRetires = W then
      { s with curRetireCycle := s.curRetireCycle + 1, curCycleRetires := 0 }
    else { s with curCycleRetires := s.curCycleRetires + 1 }
  else
    -- advance
    { s with curRetireCycle := minRetireCycle, curCycleRetires := 1 }

def markRetire (SZ W : ℕ) (minRetireCycle : UInt64) (s : ReorderBuffer) : ReorderBuffer :=
  let s' := s.retire W minRetireCycle
  { s' with
    buf := update s'.buf s'.idx s'.curRetireCycle
    idx := if s'.idx + 1 = SZ then 0 else s'.idx + 1 }

/-- The buffer after the first `n` calls, of which call `i` has minimum cycle `x i`. -/
def after (SZ W : ℕ) (x : ℕ → UInt64) : ℕ → ReorderBuffer
  | 0 => start
  | n + 1 => (after SZ W x n).markRetire SZ W (x n)

/-- The retire cycle of entry `i`. -/
def retireCycle (SZ W : ℕ) (x : ℕ → UInt64) (i : ℕ) : ℕ :=
  (after SZ W x (i + 1)).curRetireCycle.toNat

/-- The first `n` entries retire in order, `W` a cycle and promptly, and `minAllocCycle` is the
retire cycle of the entry `SZ` positions earlier. -/
structure Retires (SZ W : ℕ) (x : ℕ → UInt64) (n : ℕ) : Prop where
  inOrder : InOrder W n (fun i => (x i).toNat) (retireCycle SZ W x)
  minAllocCycle : ∀ k ≤ n, (after SZ W x k).minAllocCycle.toNat =
    if SZ ≤ k then retireCycle SZ W x (k - SZ) else 0

/-- Entries `i` to `i + W` want to retire in one cycle and the next `W` entries in the one after it
at the latest. -/
def Spills (W : ℕ) (x : ℕ → UInt64) (n i : ℕ) : Prop :=
  i + 2 * W < n ∧ (∀ k, i < k → k ≤ i + W → x k ≤ x i) ∧
    ∀ k, i + W < k → k ≤ i + 2 * W → (x k).toNat ≤ (x i).toNat + 1

/-- The calls that the counter handles. -/
structure Handled (W : ℕ) (x : ℕ → UInt64) (n : ℕ) : Prop where
  opening : ¬(0 < n ∧ W ≤ n ∧ ∀ i < W, x i = 0)
  spill : ∀ i, ¬Spills W x n i
  last : ∀ i, i + W < n → (x i).toNat ≠ 2 ^ 64 - 1

variable {SZ W n m i k : ℕ} {x : ℕ → UInt64}

/-! ### One call -/

/-- What a call does to the cycle and the counter. -/
theorem after_succ_cases (SZ W : ℕ) (x : ℕ → UInt64) (k : ℕ) :
    (x k ≤ (after SZ W x k).curRetireCycle ∧ (after SZ W x k).curCycleRetires = W ∧
      (after SZ W x (k + 1)).curRetireCycle = (after SZ W x k).curRetireCycle + 1 ∧
      (after SZ W x (k + 1)).curCycleRetires = 0) ∨
    (x k ≤ (after SZ W x k).curRetireCycle ∧ (after SZ W x k).curCycleRetires ≠ W ∧
      (after SZ W x (k + 1)).curRetireCycle = (after SZ W x k).curRetireCycle ∧
      (after SZ W x (k + 1)).curCycleRetires = (after SZ W x k).curCycleRetires + 1) ∨
    ((after SZ W x k).curRetireCycle < x k ∧ (after SZ W x (k + 1)).curRetireCycle = x k ∧
      (after SZ W x (k + 1)).curCycleRetires = 1) := by
  simp only [after, markRetire, retire]
  by_cases hle : x k ≤ (after SZ W x k).curRetireCycle
  · rw [if_pos hle]
    by_cases hfull : (after SZ W x k).curCycleRetires = W
    · rw [if_pos hfull]
      exact .inl ⟨hle, hfull, rfl, rfl⟩
    · rw [if_neg hfull]
      exact .inr (.inl ⟨hle, hfull, rfl, rfl⟩)
  · rw [if_neg hle]
    exact .inr (.inr ⟨UInt64.not_le.mp hle, rfl, rfl⟩)

theorem buf_succ (SZ W : ℕ) (x : ℕ → UInt64) (k : ℕ) :
    (after SZ W x (k + 1)).buf = update (after SZ W x k).buf (after SZ W x k).idx
      (after SZ W x (k + 1)).curRetireCycle := by
  simp only [after, markRetire, retire]
  split
  · split <;> rfl
  · rfl

theorem idx_succ (SZ W : ℕ) (x : ℕ → UInt64) (k : ℕ) :
    (after SZ W x (k + 1)).idx =
      if (after SZ W x k).idx + 1 = SZ then 0 else (after SZ W x k).idx + 1 := by
  simp only [after, markRetire, retire]
  split
  · split <;> rfl
  · rfl

/-! ### The circular buffer -/

theorem succ_mod (hSZ : 0 < SZ) (k : ℕ) :
    (k + 1) % SZ = if k % SZ + 1 = SZ then 0 else k % SZ + 1 := by
  have hlt := Nat.mod_lt k hSZ
  have hk := Nat.div_add_mod k SZ
  by_cases hwrap : k % SZ + 1 = SZ
  · have hnext : k + 1 = SZ * (k / SZ + 1) := by
      rw [Nat.mul_add, Nat.mul_one]
      omega
    rw [if_pos hwrap, hnext, Nat.mul_mod_right]
  · have hnext : k + 1 = SZ * (k / SZ) + (k % SZ + 1) := by omega
    rw [if_neg hwrap, hnext, Nat.mul_add_mod, Nat.mod_eq_of_lt (by omega)]

theorem idx_eq (hSZ : 0 < SZ) (k : ℕ) : (after SZ W x k).idx = k % SZ := by
  induction k with
  | zero => exact (Nat.zero_mod SZ).symm
  | succ k ih => rw [idx_succ, ih, succ_mod hSZ]

theorem mod_ne (hlt : i < k) (hle : k < i + SZ) : i % SZ ≠ k % SZ := by
  intro heq
  have hdvd : SZ ∣ k - i := Nat.dvd_of_mod_eq_zero (Nat.sub_mod_eq_zero_of_mod_eq heq.symm)
  have := Nat.le_of_dvd (by omega) hdvd
  omega

/-- The buffer holds the retire cycles of the last `SZ` entries, and zeros before there are as
many. -/
theorem buf_spec (hSZ : 0 < SZ) (k : ℕ) :
    (∀ i < k, k ≤ i + SZ →
      (after SZ W x k).buf (i % SZ) = (after SZ W x (i + 1)).curRetireCycle) ∧
    ∀ i < SZ, k ≤ i → (after SZ W x k).buf i = 0 := by
  induction k with
  | zero => exact ⟨fun i hi => absurd hi (Nat.not_lt_zero i), fun i _ _ => rfl⟩
  | succ k ih =>
    rw [buf_succ, idx_eq hSZ]
    constructor
    · intro i hi hle
      rcases Nat.lt_succ_iff_lt_or_eq.mp hi with hi | rfl
      · rw [update_of_ne (mod_ne hi (by omega))]
        exact ih.1 i hi (by omega)
      · rw [update_self]
    · intro i hi hle
      rw [update_of_ne (by rw [Nat.mod_eq_of_lt (by omega)]; omega)]
      exact ih.2 i hi (by omega)

theorem minAllocCycle_eq (hSZ : 0 < SZ) (k : ℕ) : (after SZ W x k).minAllocCycle.toNat =
    if SZ ≤ k then retireCycle SZ W x (k - SZ) else 0 := by
  rw [minAllocCycle, idx_eq hSZ]
  split
  case isTrue hle =>
    rw [Nat.mod_eq_sub_mod hle, (buf_spec hSZ k).1 (k - SZ) (by omega) (by omega), retireCycle]
  case isFalse hlt =>
    rw [Nat.mod_eq_of_lt (by omega), (buf_spec hSZ k).2 k (by omega) (Nat.le_refl k)]
    rfl

/-! ### The counter, where it is right -/

/-- The bundle of the current cycle after `k` calls, of which `m` have retired in it. -/
inductive Bundle (SZ W : ℕ) (x : ℕ → UInt64) (k m : ℕ) : Prop
  /-- The first bundle, in cycle 0. -/
  | opening (hm : m = k) (hlt : m < W) (hcycle : (after SZ W x k).curRetireCycle.toNat = 0)
    (hcount : (after SZ W x k).curCycleRetires = m + 1) (hzero : ∀ i < k, x i = 0)
  /-- The clock has advanced to the minimum of entry `i`. -/
  | advanced (i : ℕ) (hk : k = i + m) (hpos : 0 < m) (hle : m ≤ W)
    (hcycle : (after SZ W x k).curRetireCycle = x i)
    (hcount : (after SZ W x k).curCycleRetires = m) (hx : ∀ j, i < j → j < k → x j ≤ x i)
  /-- The bundle of entry `i` is full, and this is the one after it. -/
  | spilled (i : ℕ) (hk : k = i + W + m) (hpos : 0 < m) (hle : m ≤ W)
    (hcycle : (after SZ W x k).curRetireCycle.toNat = (x i).toNat + 1)
    (hcount : (after SZ W x k).curCycleRetires + 1 = m)
    (hx : ∀ j, i < j → j ≤ i + W → x j ≤ x i)
    (hnext : ∀ j, i + W < j → j < k → (x j).toNat ≤ (x i).toNat + 1)

/-- The state of the proof after `k` calls. -/
structure Good (SZ W : ℕ) (x : ℕ → UInt64) (k m : ℕ) : Prop where
  bundle : Bundle SZ W x k m
  inOrder : InOrder W k (fun i => (x i).toNat) (retireCycle SZ W x)
  front : Front k (retireCycle SZ W x) (after SZ W x k).curRetireCycle.toNat m

/-- A later minimum starts a bundle. -/
theorem Good.advance (h : Good SZ W x k m) (hW : 0 < W)
    (hlt : (after SZ W x k).curRetireCycle < x k)
    (hcycle : (after SZ W x (k + 1)).curRetireCycle = x k)
    (hcount : (after SZ W x (k + 1)).curCycleRetires = 1) : Good SZ W x (k + 1) 1 := by
  have hr : retireCycle SZ W x k = (x k).toNat := by rw [retireCycle, hcycle]
  obtain ⟨hin, hfront⟩ := h.inOrder.later h.front hW (by rw [hr])
    (by rw [hr]; exact UInt64.lt_iff_toNat_lt.mp hlt) (fun u hu _ _ => by rwa [hr])
  refine ⟨.advanced k rfl Nat.one_pos hW hcycle hcount (fun j hj hj' => ?_), hin, hfront⟩
  omega

/-- One more entry retires with the bundle. -/
theorem Good.join (h : Good SZ W x k m) (hle : x k ≤ (after SZ W x k).curRetireCycle) (hm : m < W)
    (hcycle : (after SZ W x (k + 1)).curRetireCycle = (after SZ W x k).curRetireCycle)
    (hbundle : Bundle SZ W x (k + 1) (m + 1)) : Good SZ W x (k + 1) (m + 1) := by
  obtain ⟨hin, hfront⟩ := h.inOrder.same h.front (UInt64.le_iff_toNat_le.mp hle) hm
    (by rw [retireCycle, hcycle])
  exact ⟨hbundle, hin, by rwa [hcycle]⟩

theorem eq_zero_of_le {u v : UInt64} (h : u ≤ v) (hv : v.toNat = 0) : u = 0 := by
  apply UInt64.toNat_inj.mp
  have hle := UInt64.le_iff_toNat_le.mp h
  rw [hv] at hle
  exact Nat.le_zero.mp hle

theorem toNat_succ {v : UInt64} (h : v.toNat ≠ 2 ^ 64 - 1) : (v + 1).toNat = v.toNat + 1 := by
  have hlt := v.toNat_lt
  rw [UInt64.toNat_add, show (1 : UInt64).toNat = 1 from rfl, Nat.mod_eq_of_lt (by omega)]

/-- The entry that finds the bundle of entry `i` full goes to the next cycle. -/
theorem Good.spill (h : Good SZ W x k W) (hW : 0 < W) (hi : k = i + W)
    (hle : x k ≤ (after SZ W x k).curRetireCycle)
    (hlast : (x i).toNat ≠ 2 ^ 64 - 1) (hcyc : (after SZ W x k).curRetireCycle = x i)
    (hx : ∀ j, i < j → j < k → x j ≤ x i)
    (hcycle : (after SZ W x (k + 1)).curRetireCycle = (after SZ W x k).curRetireCycle + 1)
    (hcount : (after SZ W x (k + 1)).curCycleRetires = 0) : Good SZ W x (k + 1) 1 := by
  rw [hcyc] at hle
  have hnext : (after SZ W x (k + 1)).curRetireCycle.toNat = (x i).toNat + 1 := by
    rw [hcycle, hcyc, toNat_succ hlast]
  have hready := UInt64.le_iff_toNat_le.mp hle
  have hr : retireCycle SZ W x k = (x i).toNat + 1 := hnext
  have hprompt : ∀ u, (x k).toNat ≤ u → (after SZ W x k).curRetireCycle.toNat ≤ u →
      tally k (retireCycle SZ W x) u < W → retireCycle SZ W x k ≤ u := by
    intro u _ hu htally
    rw [hcyc] at hu
    rw [hr]
    by_contra hlt
    obtain rfl : u = (x i).toNat := by omega
    have hhere := h.front.here
    rw [hcyc] at hhere
    omega
  obtain ⟨hin, hfront⟩ := h.inOrder.later h.front hW (by omega) (by rw [hcyc]; omega) hprompt
  refine ⟨.spilled i (by omega) Nat.one_pos hW hnext (by omega) (fun j hj hj' => ?_)
    (fun j hj hj' => ?_), hin, hfront⟩
  · rcases Nat.lt_or_eq_of_le (hi ▸ hj' : j ≤ k) with hlt | rfl
    · exact hx j hj hlt
    · exact hle
  · omega

theorem Good.succ (h : Good SZ W x k m) (hW : 0 < W) (hx : Handled W x n) (hk : k < n) :
    ∃ m, Good SZ W x (k + 1) m := by
  obtain ⟨hle, hfull, hcycle, hcount⟩ | ⟨hle, hroom, hcycle, hcount⟩ | ⟨hlt, hcycle, hcount⟩ :=
    after_succ_cases SZ W x k
  · cases h.bundle with
    | opening hm hlt hcyc hcnt hzero =>
      refine absurd ⟨by omega, by omega, fun i hi => ?_⟩ hx.opening
      rcases Nat.lt_or_eq_of_le (show i ≤ k by omega) with hi | rfl
      · exact hzero i hi
      · exact eq_zero_of_le hle hcyc
    | advanced i hi hpos hm hcyc hcnt hbelow =>
      obtain rfl : m = W := by omega
      exact ⟨1, h.spill hW hi hle (hx.last i (by omega)) hcyc hbelow hcycle hcount⟩
    | spilled i hi hpos hm hcyc hcnt hbelow hnext => omega
  · refine ⟨m + 1, ?_⟩
    have hready := UInt64.le_iff_toNat_le.mp hle
    cases h.bundle with
    | opening hm hlt hcyc hcnt hzero =>
      refine h.join hle hlt hcycle (.opening (by omega) (by omega) (by rw [hcycle, hcyc])
        (by omega) fun i hi => ?_)
      rcases Nat.lt_succ_iff_lt_or_eq.mp hi with hi | rfl
      · exact hzero i hi
      · exact eq_zero_of_le hle hcyc
    | advanced i hi hpos hm hcyc hcnt hbelow =>
      refine h.join hle (by omega) hcycle (.advanced i (by omega) (by omega) (by omega)
        (by rw [hcycle, hcyc]) (by omega) fun j hj hj' => ?_)
      rcases Nat.lt_succ_iff_lt_or_eq.mp hj' with hj' | rfl
      · exact hbelow j hj hj'
      · rwa [← hcyc]
    | spilled i hi hpos hm hcyc hcnt hbelow hnext =>
      have hupto : ∀ j, i + W < j → j ≤ k → (x j).toNat ≤ (x i).toNat + 1 := by
        intro j hj hj'
        rcases Nat.lt_or_eq_of_le hj' with hj' | rfl
        · exact hnext j hj hj'
        · omega
      have hless : m < W := by
        by_contra hnot
        exact hx.spill i ⟨by omega, hbelow, fun j hj hj' => hupto j hj (by omega)⟩
      exact h.join hle hless hcycle (.spilled i (by omega) (by omega) hless
        (by rw [hcycle, hcyc]) (by omega) hbelow fun j hj hj' => hupto j hj (by omega))
  · exact ⟨1, h.advance hW hlt hcycle hcount⟩

theorem good_of_handled (hW : 0 < W) (hx : Handled W x n) (hk : k ≤ n) :
    ∃ m, Good SZ W x k m := by
  induction k with
  | zero =>
    exact ⟨0, .opening rfl hW rfl rfl fun i hi => absurd hi (Nat.not_lt_zero i), .zero, .zero⟩
  | succ k ih =>
    obtain ⟨m, hm⟩ := ih (Nat.le_of_succ_le hk)
    exact hm.succ hW hx hk

/-! ### The counter, where it is wrong -/

/-- While there is room, the bundle stays in its cycle. -/
theorem bundle_stays {a : ℕ} (hroom : (after SZ W x k).curCycleRetires + a ≤ W)
    (hx : ∀ i < a, x (k + i) ≤ (after SZ W x k).curRetireCycle) :
    (after SZ W x (k + a)).curRetireCycle = (after SZ W x k).curRetireCycle ∧
      (after SZ W x (k + a)).curCycleRetires = (after SZ W x k).curCycleRetires + a := by
  induction a with
  | zero => exact ⟨rfl, rfl⟩
  | succ a ih =>
    obtain ⟨hcyc, hcnt⟩ := ih (by omega) fun i hi => hx i (by omega)
    have hxa := hx a (Nat.lt_succ_self a)
    obtain ⟨-, hfull, -⟩ | ⟨-, -, hcycle, hcount⟩ | ⟨hlt, -⟩ := after_succ_cases SZ W x (k + a)
    · omega
    · exact ⟨hcycle.trans hcyc, by rw [← Nat.add_assoc, hcount, hcnt]; omega⟩
    · rw [hcyc] at hlt
      exact absurd hxa (UInt64.not_le.mpr hlt)

theorem count_le (SZ : ℕ) (x : ℕ → UInt64) (hW : 0 < W) (k : ℕ) :
    (after SZ W x k).curCycleRetires ≤ W := by
  induction k with
  | zero => exact hW
  | succ k ih =>
    obtain ⟨-, -, -, hcount⟩ | ⟨-, hroom, -, hcount⟩ | ⟨-, -, hcount⟩ := after_succ_cases SZ W x k
    · omega
    · omega
    · omega

section

variable (h : InOrder W n (fun i => (x i).toNat) (retireCycle SZ W x))

include h

theorem cycle_mono (hik : i ≤ k) (hk : k ≤ n) :
    (after SZ W x i).curRetireCycle.toNat ≤ (after SZ W x k).curRetireCycle.toNat := by
  cases i with
  | zero => exact Nat.zero_le _
  | succ i =>
    obtain ⟨k, rfl⟩ : ∃ k', k = k' + 1 := ⟨k - 1, by omega⟩
    exact h.ordered i k (by omega) hk

/-- In order, the clock does not wrap. -/
theorem full_next (hk : k < n)
    (hcycle : (after SZ W x (k + 1)).curRetireCycle = (after SZ W x k).curRetireCycle + 1) :
    (after SZ W x (k + 1)).curRetireCycle.toNat = (after SZ W x k).curRetireCycle.toNat + 1 := by
  rw [hcycle]
  apply toNat_succ
  intro hlast
  have hmono := cycle_mono h (Nat.le_succ k) hk
  rw [hcycle, UInt64.toNat_add, hlast] at hmono
  exact absurd hmono (by decide)

/-- An entry that a full bundle has spilled takes `W` more with it. -/
theorem not_crowded_after (hcount : (after SZ W x (k + 1)).curCycleRetires = 0) (hk : k + W < n)
    (hx : ∀ j < W, x (k + 1 + j) ≤ (after SZ W x (k + 1)).curRetireCycle) : False := by
  refine h.not_crowded (after SZ W x (k + 1)).curRetireCycle.toNat hk fun j hj => ?_
  obtain ⟨hcyc, -⟩ := bundle_stays (a := j) (by omega) fun l hl => hx l (by omega)
  rw [retireCycle, show k + j + 1 = k + 1 + j by omega, hcyc]

theorem opening_of_inOrder (hW : 0 < W) : ¬(0 < n ∧ W ≤ n ∧ ∀ i < W, x i = 0) := by
  rintro ⟨-, hle, hzero⟩
  obtain ⟨hcyc, hcnt⟩ := @bundle_stays SZ W 0 x (W - 1) (by
      change 1 + (W - 1) ≤ W
      omega) fun i hi => by
    rw [Nat.zero_add, hzero i (by omega)]
    exact UInt64.zero_le
  rw [Nat.zero_add] at hcyc hcnt
  have hcnt' : (after SZ W x (W - 1)).curCycleRetires = W := by
    rw [hcnt]
    change 1 + (W - 1) = W
    omega
  have hx : x (W - 1) = 0 := hzero (W - 1) (by omega)
  obtain ⟨-, -, hcycle, -⟩ | ⟨-, hroom, -⟩ | ⟨hlt, -⟩ := after_succ_cases SZ W x (W - 1)
  · have hone : retireCycle SZ W x (W - 1) = 1 := by
      rw [retireCycle, hcycle, hcyc]
      rfl
    have hprompt := h.prompt (W - 1) (by omega) 0 (by rw [hx]; exact Nat.le_refl 0) (fun j hj => by
        have hmono := cycle_mono h (show j + 1 ≤ W - 1 from hj) (by omega)
        rw [hcyc] at hmono
        exact hmono) (Nat.lt_of_le_of_lt (tally_le _ _ _) (by omega))
    omega
  · exact hroom hcnt'
  · rw [hx] at hlt
    exact UInt64.not_lt_zero hlt

theorem last_of_inOrder (hi : i + W < n) : (x i).toNat ≠ 2 ^ 64 - 1 := by
  intro hlast
  refine h.not_crowded (2 ^ 64 - 1) hi fun j hj => ?_
  have hready : (x i).toNat ≤ retireCycle SZ W x i := h.notBefore i (by omega)
  have hmono := h.ordered i (i + j) (by omega) (by omega)
  have hlt : retireCycle SZ W x (i + j) < 2 ^ 64 := UInt64.toNat_lt _
  omega

theorem spill_of_inOrder (hW : 0 < W) (i : ℕ) : ¬Spills W x n i := by
  rintro ⟨hi, hbelow, hnext⟩
  have hready : (x i).toNat ≤ (after SZ W x (i + 1)).curRetireCycle.toNat :=
    h.notBefore i (by omega)
  have hfirst : ∀ j < W, x (i + 1 + j) ≤ (after SZ W x (i + 1)).curRetireCycle := fun j hj =>
    UInt64.le_trans (hbelow (i + 1 + j) (by omega) (by omega)) (UInt64.le_iff_toNat_le.mpr hready)
  by_cases hcnt : (after SZ W x (i + 1)).curCycleRetires = 0
  · exact not_crowded_after h hcnt (by omega) hfirst
  -- the bundle fills up at entry `k`, by `i + W`
  obtain ⟨k, hk⟩ : ∃ k, k + (after SZ W x (i + 1)).curCycleRetires = i + 1 + W :=
    ⟨i + 1 + W - (after SZ W x (i + 1)).curCycleRetires, by
      have := count_le SZ x hW (i + 1)
      omega⟩
  have hle := count_le SZ x hW (i + 1)
  obtain ⟨hcyc, hcnt'⟩ := @bundle_stays SZ W (i + 1) x (k - (i + 1)) (by omega)
    fun j hj => hfirst j (by omega)
  rw [show i + 1 + (k - (i + 1)) = k by omega] at hcyc hcnt'
  have hxk : x k ≤ (after SZ W x k).curRetireCycle := by
    have := hfirst (k - (i + 1)) (by omega)
    rwa [show i + 1 + (k - (i + 1)) = k by omega, ← hcyc] at this
  obtain ⟨-, -, hcycle, hcount⟩ | ⟨-, hroom, -⟩ | ⟨hlt, -⟩ := after_succ_cases SZ W x k
  · have hspill := full_next h (by omega) hcycle
    refine not_crowded_after h hcount (by omega) fun j hj => UInt64.le_iff_toNat_le.mpr ?_
    have hle' : (x (k + 1 + j)).toNat ≤ (x i).toNat + 1 := by
      by_cases hwhere : k + 1 + j ≤ i + W
      · have := UInt64.le_iff_toNat_le.mp (hbelow (k + 1 + j) (by omega) hwhere)
        omega
      · exact hnext (k + 1 + j) (by omega) (by omega)
    rw [hspill, hcyc]
    omega
  · omega
  · exact UInt64.not_le.mpr hlt hxk

theorem handled_of_inOrder (hW : 0 < W) : Handled W x n where
  opening := opening_of_inOrder h hW
  spill := spill_of_inOrder h hW
  last _ hi := last_of_inOrder h hi

end

/-- The buffer retires in order, `W` entries a cycle and promptly, exactly for the calls that the
counter handles. -/
theorem retires_iff_handled (hSZ : 0 < SZ) (W : ℕ) (x : ℕ → UInt64) (n : ℕ) :
    Retires SZ W x n ↔ Handled W x n := by
  rcases Nat.eq_zero_or_pos W with rfl | hW
  · have hnone : Handled 0 x n ↔ n = 0 := by
      constructor
      case mp =>
        intro hx
        by_contra hn
        exact hx.opening ⟨by omega, by omega, fun i hi => absurd hi (Nat.not_lt_zero i)⟩
      case mpr =>
        rintro rfl
        exact ⟨fun h => absurd h.1 (Nat.lt_irrefl 0), fun i h => absurd h.1 (Nat.not_lt_zero _),
          fun i hi => absurd hi (Nat.not_lt_zero _)⟩
    rw [hnone]
    constructor
    case mp =>
      intro h
      by_contra hn
      exact h.inOrder.not_crowded (k := 0) _ (by omega) fun i hi => by
        obtain rfl := Nat.le_zero.mp hi
        rfl
    case mpr =>
      rintro rfl
      exact ⟨.zero, fun k _ => minAllocCycle_eq hSZ k⟩
  constructor
  case mp => exact fun h => handled_of_inOrder h.inOrder hW
  case mpr =>
    intro hx
    obtain ⟨m, hm⟩ := good_of_handled hW hx (Nat.le_refl n)
    exact ⟨hm.inOrder, fun k _ => minAllocCycle_eq hSZ k⟩

/-- The buffer of the core, and nine entries that are ready in cycle 10: four of them retire in it,
and five in the next. -/
theorem five_retire_together : ¬Retires 128 4 (fun _ => 10) 9 := by
  intro h
  have hfive : tally 9 (retireCycle 128 4 fun _ => 10) 11 = 5 := by decide +kernel
  have := h.inOrder.room 11
  omega

theorem retires_iff_handled_core :
    Retires 128 4 (fun i => UInt64.ofNat i) 3 ↔ Handled 4 (fun i => UInt64.ofNat i) 3 :=
  retires_iff_handled (by decide) 4 _ 3

end ReorderBuffer

end Doppelganger.Core
