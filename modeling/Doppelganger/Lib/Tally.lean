import Mathlib.Algebra.BigOperators.Group.Finset.Basic
import Mathlib.Algebra.BigOperators.Intervals
import Mathlib.Algebra.Order.BigOperators.Group.Finset
import Mathlib.Logic.Function.Basic

/-! Sums of numbers over `0` to `n - 1`, of which a step changes one; tallies: of `n` things, each
of one kind, how many are of which kind; and 64-bit counters that follow the tallies of things of
kinds below `m`, when one thing after the other changes its kind. -/

namespace Doppelganger.Lib

/-! ### Sums -/

section Sums

variable {n : ℕ} {f g : ℕ → ℕ}

theorem sum_unchanged (h : ∀ q < n, f q = g q) :
    ∑ q ∈ Finset.range n, f q = ∑ q ∈ Finset.range n, g q :=
  Finset.sum_congr rfl fun q hq => h q (Finset.mem_range.mp hq)

/-- When only `f p` changes, the sum changes with it. -/
theorem sum_changed {p : ℕ} (hp : p < n) (h : ∀ q < n, q ≠ p → f q = g q) :
    ∑ q ∈ Finset.range n, g q + f p = ∑ q ∈ Finset.range n, f q + g p := by
  have hmem : p ∈ Finset.range n := Finset.mem_range.mpr hp
  have hrest : ∑ q ∈ (Finset.range n).erase p, f q = ∑ q ∈ (Finset.range n).erase p, g q := by
    apply Finset.sum_congr rfl
    intro q hq
    exact h q (Finset.mem_range.mp (Finset.mem_of_mem_erase hq)) (Finset.ne_of_mem_erase hq)
  rw [← Finset.add_sum_erase _ f hmem, ← Finset.add_sum_erase _ g hmem, hrest]
  omega

theorem le_sum {p : ℕ} (hp : p < n) : f p ≤ ∑ q ∈ Finset.range n, f q :=
  Finset.single_le_sum (fun _ _ => Nat.zero_le _) (Finset.mem_range.mpr hp)

/-- A sum of zeros and ones is at most the number of its terms. -/
theorem sum_le (h : ∀ q, f q ≤ 1) : ∑ q ∈ Finset.range n, f q ≤ n := by
  induction n with
  | zero => exact Nat.le_refl 0
  | succ n ih =>
    have hn := h n
    rw [Finset.sum_range_succ]
    omega

/-- A sum of zeros and ones, one of them a zero, is less than the number of its terms. -/
theorem sum_lt {p : ℕ} (h : ∀ q, f q ≤ 1) (hp : p < n) (hzero : f p = 0) :
    ∑ q ∈ Finset.range n, f q < n := by
  have hle : ∑ q ∈ Finset.range n, (if q = p then 1 else f q) ≤ n := by
    apply sum_le
    intro q
    split
    · exact Nat.le_refl 1
    · exact h q
  have hsum := sum_changed (f := f) (g := fun q => if q = p then 1 else f q) hp
    fun q _ hq => (if_neg hq).symm
  simp only [if_pos, hzero] at hsum
  omega

end Sums

/-! ### Tallies -/

section Tallies

open Function

variable {κ : Type*} [DecidableEq κ]

/-- How many of the first `n` values of `f` are `k`. -/
def tally (n : ℕ) (f : ℕ → κ) (k : κ) : ℕ := ∑ i ∈ Finset.range n, if f i = k then 1 else 0

variable {n id : ℕ} {f g : ℕ → κ} {k k' : κ}

theorem tally_congr (h : ∀ i < n, f i = g i) (k : κ) : tally n f k = tally n g k :=
  sum_unchanged fun i hi => by rw [h i hi]

theorem tally_le (n : ℕ) (f : ℕ → κ) (k : κ) : tally n f k ≤ n := by
  apply sum_le
  intro i
  split
  case isTrue => exact Nat.le_refl 1
  case isFalse => exact Nat.zero_le 1

theorem tally_pos (hid : id < n) (hk : f id = k) : 0 < tally n f k := by
  have hle := @le_sum n (fun i => if f i = k then 1 else 0) id hid
  rwa [if_pos hk] at hle

theorem tally_succ (n : ℕ) (f : ℕ → κ) (k : κ) :
    tally (n + 1) f k = tally n f k + if f n = k then 1 else 0 :=
  Finset.sum_range_succ _ n

theorem tally_none (h : ∀ i < n, f i ≠ k) : tally n f k = 0 := by
  induction n with
  | zero => rfl
  | succ n ih =>
    rw [tally_succ, if_neg (h n (Nat.lt_succ_self n)), ih fun i hi => h i (Nat.lt_succ_of_lt hi)]

/-- A block of things of one kind. -/
theorem le_tally {s m : ℕ} (h : ∀ i < m, f (s + i) = k) (hle : s + m ≤ n) : m ≤ tally n f k := by
  have hblock : m ≤ tally (s + m) f k := by
    clear hle
    induction m with
    | zero => exact Nat.zero_le _
    | succ m ih =>
      have hrest := ih fun i hi => h i (Nat.lt_succ_of_lt hi)
      rw [← Nat.add_assoc, tally_succ, if_pos (h m (Nat.lt_succ_self m))]
      omega
  apply Nat.le_trans hblock
  induction hle with
  | refl => exact Nat.le_refl _
  | step _ ih =>
    rw [tally_succ]
    omega

theorem tally_const (n : ℕ) (k : κ) : tally n (fun _ => k) k = n := by
  unfold tally
  simp only [if_true]
  rw [← Finset.card_eq_sum_ones, Finset.card_range]

theorem tally_const_ne (n : ℕ) (hk : k' ≠ k) : tally n (fun _ => k') k = 0 := by
  simp [tally, hk]

/-- When only thing `id` changes, the tallies change with it. -/
theorem tally_changed (hid : id < n) (h : ∀ i < n, i ≠ id → g i = f i) (k : κ) :
    tally n g k + (if f id = k then 1 else 0) = tally n f k + if g id = k then 1 else 0 := by
  apply @sum_changed n (fun i => if f i = k then 1 else 0)
    (fun i => if g i = k then 1 else 0) id hid
  intro i hi hne
  rw [h i hi hne]

theorem tally_update {α : Type*} (hid : id < n) (kind : α → κ) (f : ℕ → α) (v : α) (k : κ) :
    tally n (fun i => kind (update f id v i)) k + (if kind (f id) = k then 1 else 0) =
      tally n (fun i => kind (f i)) k + if kind v = k then 1 else 0 := by
  have hchanged := tally_changed (f := fun i => kind (f i)) (g := fun i => kind (update f id v i))
    hid (fun i _ hne => by rw [update_of_ne hne]) k
  rwa [update_self] at hchanged

/-- The tallies of all kinds make up the whole. -/
theorem sum_tally {m : ℕ} {f : ℕ → ℕ} (h : ∀ i < n, f i < m) :
    ∑ k ∈ Finset.range m, tally n f k = n := by
  unfold tally
  rw [Finset.sum_comm]
  calc ∑ i ∈ Finset.range n, ∑ k ∈ Finset.range m, (if f i = k then 1 else 0)
      = ∑ i ∈ Finset.range n, 1 := sum_unchanged fun i hi => by
        rw [Finset.sum_ite_eq, if_pos (Finset.mem_range.mpr (h i hi))]
    _ = n := by rw [← Finset.card_eq_sum_ones, Finset.card_range]

end Tallies

/-! ### Counters -/

section Counters

open Function

variable {n m id a b k : ℕ} {count : ℕ → UInt64} {kind kind' : ℕ → ℕ}

def dec (count : ℕ → UInt64) (a : ℕ) : ℕ → UInt64 := update count a (count a - 1)

def inc (count : ℕ → UInt64) (b : ℕ) : ℕ → UInt64 := update count b (count b + 1)

/-- The counter of each kind is its tally. -/
def Counts (n m : ℕ) (count : ℕ → UInt64) (kind : ℕ → ℕ) : Prop :=
  ∀ k < m, (count k).toNat = tally n kind k

theorem toNat_dec (h : count a ≠ 0) (k : ℕ) :
    (dec count a k).toNat + (if a = k then 1 else 0) = (count k).toNat := by
  unfold dec
  by_cases hk : a = k
  · subst hk
    have hpos : (count a).toNat ≠ 0 := fun hzero => h (UInt64.toNat_inj.mp hzero)
    have hle : (1 : UInt64) ≤ count a :=
      UInt64.le_iff_toNat_le.mpr (Nat.one_le_iff_ne_zero.mpr hpos)
    rw [update_self, if_pos rfl, UInt64.toNat_sub_of_le _ _ hle]
    change (count a).toNat - 1 + 1 = (count a).toNat
    omega
  · rw [update_of_ne (Ne.symm hk), if_neg hk, Nat.add_zero]

theorem toNat_inc (h : (count b).toNat + 1 < 2 ^ 64) (k : ℕ) :
    (inc count b k).toNat = (count k).toNat + if b = k then 1 else 0 := by
  unfold inc
  by_cases hk : b = k
  · subst hk
    rw [update_self, if_pos rfl, UInt64.toNat_add]
    exact Nat.mod_eq_of_lt h
  · rw [update_of_ne (Ne.symm hk), if_neg hk, Nat.add_zero]

theorem dec_inc (count : ℕ → UInt64) (a b : ℕ) : dec (inc count b) a = inc (dec count a) b := by
  funext k
  unfold dec inc
  by_cases hab : a = b
  · subst hab
    by_cases hk : k = a
    · subst hk
      simp only [update_self, UInt64.add_sub_cancel, UInt64.sub_add_cancel]
    · simp only [update_of_ne hk]
  · by_cases hka : k = a
    · subst hka
      simp only [update_self, update_of_ne hab]
    · by_cases hkb : k = b
      · subst hkb
        simp only [update_self, update_of_ne hka]
      · simp only [update_of_ne hka, update_of_ne hkb]

theorem inc_dec_self (count : ℕ → UInt64) (a : ℕ) : inc (dec count a) a = count := by
  unfold dec inc
  rw [update_self, update_idem, UInt64.sub_add_cancel, update_eq_self]

theorem Counts.ne_zero (h : Counts n m count kind) (hid : id < n) (hm : kind id < m) :
    count (kind id) ≠ 0 := by
  intro hzero
  have hpos := @tally_pos ℕ _ n id kind (kind id) hid rfl
  rw [← h (kind id) hm, hzero] at hpos
  exact Nat.lt_irrefl 0 hpos

/-- One counter down and one up follow a thing that changes its kind. -/
theorem Counts.move (h : Counts n m count kind) (kind' : ℕ → ℕ) (hn : n < 2 ^ 63) (hid : id < n)
    (hm : kind id < m) (hm' : kind' id < m) (hother : ∀ i < n, i ≠ id → kind' i = kind i) :
    Counts n m (inc (dec count (kind id)) (kind' id)) kind' := by
  intro k hk
  have hdec := toNat_dec (h.ne_zero hid hm)
  have hroom : (dec count (kind id) (kind' id)).toNat + 1 < 2 ^ 64 := by
    have hle := tally_le n kind (kind' id)
    have hold := h (kind' id) hm'
    have := hdec (kind' id)
    omega
  have hchanged := tally_changed hid hother k
  have hold := h k hk
  have := hdec k
  rw [toNat_inc hroom]
  omega

theorem Counts.congr (h : Counts n m count kind) (hsame : ∀ i < n, kind' i = kind i) :
    Counts n m count kind' := by
  intro k hk
  rw [h k hk]
  exact (tally_congr hsame k).symm

/-- The counters make up the whole. -/
theorem Counts.sum (h : Counts n m count kind) (hm : ∀ i < n, kind i < m) :
    ∑ k ∈ Finset.range m, (count k).toNat = n := by
  rw [← sum_tally hm]
  exact sum_unchanged h

/-- All things are of kind `a`. -/
theorem counts_const (hn : n < 2 ^ 64) (a : ℕ) :
    Counts n m (fun k => if k = a then UInt64.ofNat n else 0) fun _ => a := by
  intro k _
  dsimp only
  by_cases hk : k = a
  · rw [if_pos hk, hk, tally_const, UInt64.toNat_ofNat', Nat.mod_eq_of_lt hn]
  · rw [if_neg hk, tally_const_ne n (Ne.symm hk)]
    rfl

end Counters

end Doppelganger.Lib
