import Doppelganger.Part.Vantage

/-! The targets of `VantageReplPolicy` with `smoothTransients`: a partition that grows takes a line
from one that shrinks.  There is one to take as long as the long-term targets need no more lines
than the targets have, which the divisions of the constructor and of `setPartitionSizes` decide. -/

namespace Doppelganger.Part

open Lib Function

/-- From `t` to `t'`, each of the first `n` targets goes towards the long-term one and not past
it. -/
def Toward (n : ℕ) (longTerm t t' : ℕ → UInt64) : Prop :=
  ∀ p < n, (t p ≤ longTerm p → t p ≤ t' p ∧ t' p ≤ longTerm p) ∧
    (longTerm p ≤ t p → t' p ≤ t p ∧ longTerm p ≤ t' p)

theorem Toward.refl (n : ℕ) (longTerm t : ℕ → UInt64) : Toward n longTerm t t :=
  fun _ _ => ⟨fun h => ⟨UInt64.le_refl _, h⟩, fun h => ⟨UInt64.le_refl _, h⟩⟩

theorem Toward.trans {n : ℕ} {longTerm t t1 t' : ℕ → UInt64} (h : Toward n longTerm t t1)
    (h' : Toward n longTerm t1 t') : Toward n longTerm t t' := by
  intro p hp
  constructor
  · intro hle
    obtain ⟨h1, h2⟩ := (h p hp).1 hle
    obtain ⟨h3, h4⟩ := (h' p hp).1 h2
    exact ⟨UInt64.le_trans h1 h3, h4⟩
  · intro hle
    obtain ⟨h1, h2⟩ := (h p hp).2 hle
    obtain ⟨h3, h4⟩ := (h' p hp).2 h2
    exact ⟨UInt64.le_trans h3 h1, h4⟩

/-- The first `n` targets together. -/
def targetSum (n : ℕ) (t : ℕ → UInt64) : ℕ := ∑ p ∈ Finset.range n, (t p).toNat

section Targets

variable {n p q : ℕ} {longTerm t t' : ℕ → UInt64}

/-- When only the target of partition `p` changes, the sum changes with it. -/
theorem targetSum_changed (hp : p < n) (h : ∀ q < n, q ≠ p → t' q = t q) :
    targetSum n t' + (t p).toNat = targetSum n t + (t' p).toNat :=
  (@sum_changed n (fun q => (t' q).toNat) (fun q => (t q).toNat) p hp
    fun q hq hne => by rw [h q hq hne]).symm ▸ rfl

theorem le_targetSum (hp : p < n) : (t p).toNat ≤ targetSum n t :=
  @le_sum n (fun q => (t q).toNat) p hp

theorem targetSum_dec (hq : q < n) (hne : t q ≠ 0) :
    targetSum n (dec t q) + 1 = targetSum n t := by
  have hchanged := @targetSum_changed n q t (dec t q) hq fun i _ hi => update_of_ne hi _ _
  have hone := toNat_dec hne q
  rw [if_pos rfl] at hone
  omega

theorem targetSum_inc (hq : q < n) (hlt : (t q).toNat + 1 < 2 ^ 64) :
    targetSum n (inc t q) = targetSum n t + 1 := by
  have hchanged := @targetSum_changed n q t (inc t q) hq fun i _ hi => update_of_ne hi _ _
  have hone := toNat_inc hlt q
  rw [if_pos rfl] at hone
  omega

theorem toward_dec (hlt : longTerm q < t q) : Toward n longTerm t (dec t q) := by
  have hlt' := UInt64.lt_iff_toNat_lt.mp hlt
  have hne : t q ≠ 0 := by
    intro hzero
    rw [hzero] at hlt'
    exact Nat.not_lt_zero _ hlt'
  intro p _
  simp only [UInt64.le_iff_toNat_le]
  have hone := toNat_dec hne p
  by_cases hqp : q = p
  · subst hqp
    rw [if_pos rfl] at hone
    omega
  · rw [if_neg hqp] at hone
    omega

theorem toward_inc (hlt : t q < longTerm q) : Toward n longTerm t (inc t q) := by
  have hlt' := UInt64.lt_iff_toNat_lt.mp hlt
  have hsize := (longTerm q).toNat_lt
  intro p _
  simp only [UInt64.le_iff_toNat_le]
  have hone := @toNat_inc q t (by omega) p
  by_cases hqp : q = p
  · subst hqp
    rw [if_pos rfl] at hone
    omega
  · rw [if_neg hqp] at hone
    omega

/-- Targets that only grow, and not past the long-term ones, move towards them. -/
theorem toward_of_grown (h : ∀ p < n, (t p < longTerm p → t p ≤ t' p ∧ t' p ≤ longTerm p) ∧
    (longTerm p ≤ t p → t' p = t p)) : Toward n longTerm t t' := by
  intro p hp
  obtain ⟨hgrow, hkeep⟩ := h p hp
  constructor
  · intro hle
    by_cases hlt : t p < longTerm p
    · exact hgrow hlt
    · rw [hkeep (UInt64.not_lt.mp hlt)]
      exact ⟨UInt64.le_refl _, hle⟩
  · intro hle
    rw [hkeep hle]
    exact ⟨UInt64.le_refl _, hle⟩

theorem Toward.targetSum_le (h : Toward n longTerm t t') :
    targetSum n t' ≤ targetSum n t + targetSum n longTerm := by
  unfold targetSum
  rw [← Finset.sum_add_distrib]
  apply Finset.sum_le_sum
  intro p hp
  obtain ⟨h1, h2⟩ := h p (Finset.mem_range.mp hp)
  simp only [UInt64.le_iff_toNat_le] at h1 h2
  omega

end Targets

namespace VantageReplPolicy

variable {randInt : ℕ → UInt32 → UInt32} {s s1 s' : VantageReplPolicy} {id part p n k m : ℕ}

/-! ### The lines that are left -/

theorem toInt32_pos (x : UInt32) : 0 < x.toInt32 ↔ 0 < x.toNat ∧ x.toNat < 2 ^ 31 := by
  have hsize := x.toNat_lt
  rw [Int32.lt_iff_toInt_lt, Int32.toInt_zero]
  change 0 < x.toBitVec.toInt ↔ _
  rw [BitVec.toInt_eq_toNat_cond]
  change 0 < (if 2 * x.toNat < 2 ^ 32 then (x.toNat : Int) else (x.toNat : Int) - (2 ^ 32 : ℕ)) ↔ _
  split
  · omega
  · omega

/-- Targets fit an `int32_t`. -/
def Narrow (s : VantageReplPolicy) : Prop :=
  ∀ p < s.partitions, (s.targetSize p).toNat < 2 ^ 31 ∧ (s.longTermTargetSize p).toNat < 2 ^ 31

theorem left_toNat (h : s.Narrow) (hp : p < s.partitions) :
    (0 < s.left p ↔ s.longTermTargetSize p < s.targetSize p) ∧
      (s.linesOver p).toNat = (s.targetSize p).toNat - (s.longTermTargetSize p).toNat := by
  obtain ⟨ht, hl⟩ := h p hp
  have hdiff : ((s.targetSize p - s.longTermTargetSize p).toUInt32).toNat =
      (2 ^ 64 - (s.longTermTargetSize p).toNat + (s.targetSize p).toNat) % 2 ^ 64 % 2 ^ 32 := by
    rw [UInt64.toNat_toUInt32, UInt64.toNat_sub]
  have hiff : 0 < s.left p ↔ s.longTermTargetSize p < s.targetSize p := by
    rw [left, toInt32_pos, hdiff, UInt64.lt_iff_toNat_lt]
    omega
  refine ⟨hiff, ?_⟩
  unfold linesOver
  by_cases hlt : s.longTermTargetSize p < s.targetSize p
  · rw [if_pos (hiff.mpr hlt), left, UInt32.toUInt32_toInt32, hdiff]
    have := UInt64.lt_iff_toNat_lt.mp hlt
    omega
  · rw [if_neg fun h => hlt (hiff.mp h)]
    have := UInt64.le_iff_toNat_le.mp (UInt64.not_lt.mp hlt)
    change 0 = _
    omega

/-- The lines that the first `n` partitions have above their long-term targets. -/
def excess (s : VantageReplPolicy) (n : ℕ) : ℕ := ∑ p ∈ Finset.range n, (s.linesOver p).toNat

theorem excess_succ (s : VantageReplPolicy) (n : ℕ) :
    s.excess (n + 1) = s.excess n + (s.linesOver n).toNat :=
  Finset.sum_range_succ _ n

theorem excess_mono (h : k ≤ n) : s.excess k ≤ s.excess n := by
  induction h with
  | refl => exact Nat.le_refl _
  | step _ ih =>
    rw [excess_succ]
    omega

theorem toNat_add_lt {a b : UInt32} (h : a.toNat + b.toNat < 2 ^ 32) :
    (a + b).toNat = a.toNat + b.toNat := by
  rw [UInt32.toNat_add, Nat.mod_eq_of_lt h]

theorem linesLeft_toNat (h : s.excess s.partitions < 2 ^ 32) :
    s.linesLeft.toNat = s.excess s.partitions := by
  unfold linesLeft
  generalize s.partitions = n at h ⊢
  induction n with
  | zero => rfl
  | succ n ih =>
    rw [excess_succ] at h
    have hn := ih (by omega)
    rw [List.range_succ, List.foldl_append, excess_succ, ← hn]
    exact toNat_add_lt (by omega)

/-- A number below the sum of all excesses falls to a partition that has some. -/
theorem takeFrom_spec (h : s.excess n < 2 ^ 32) {l curLines : UInt32}
    (hcur : curLines.toNat = s.excess k) (hle : s.excess k ≤ l.toNat) (hlt : l.toNat < s.excess n)
    (hk : k + m = n) :
    ∃ q < n, 0 < s.left q ∧ takeFrom s l (List.range' k m) curLines =
      some { s with targetSize := dec s.targetSize q } := by
  induction m generalizing k curLines with
  | zero =>
    obtain rfl : k = n := hk
    omega
  | succ m ih =>
    have hmono := excess_mono (s := s) (show k + 1 ≤ n by omega)
    rw [excess_succ] at hmono
    have hnext : (curLines + s.linesOver k).toNat = s.excess (k + 1) := by
      rw [excess_succ, ← hcur]
      exact toNat_add_lt (by omega)
    rw [List.range'_succ]
    unfold takeFrom
    by_cases htake : 0 < s.left k ∧ l < curLines + s.linesOver k
    · rw [if_pos htake]
      exact ⟨k, by omega, htake.1, rfl⟩
    · rw [if_neg htake]
      refine ih hnext ?_ (by omega)
      by_cases hleft : 0 < s.left k
      · have hge := UInt32.le_iff_toNat_le.mp
          (UInt32.not_lt.mp fun hlt => htake ⟨hleft, hlt⟩)
        omega
      · have hzero : s.linesOver k = 0 := if_neg hleft
        rw [excess_succ, hzero]
        exact hle

theorem range_eq_range' (n : ℕ) : List.range n = List.range' 0 n := List.range_eq_range'

/-- There is a partition above its long-term target when the targets have more lines than the
long-term ones. -/
theorem excess_pos (h : s.Narrow) (hlt : targetSum s.partitions s.longTermTargetSize <
    targetSum s.partitions s.targetSize) : 0 < s.excess s.partitions := by
  have hle : targetSum s.partitions s.targetSize ≤
      targetSum s.partitions s.longTermTargetSize + s.excess s.partitions := by
    unfold targetSum excess
    rw [← Finset.sum_add_distrib]
    apply Finset.sum_le_sum
    intro p hp
    rw [(left_toNat h (Finset.mem_range.mp hp)).2]
    omega
  omega

theorem excess_le (h : s.Narrow) : s.excess s.partitions ≤ targetSum s.partitions s.targetSize := by
  apply Finset.sum_le_sum
  intro p hp
  rw [(left_toNat h (Finset.mem_range.mp hp)).2]
  omega

/-- `takeOneLine` takes a line from a partition above its long-term target. -/
theorem takeOneLine_spec (hrand : ∀ k n, randInt k n ≤ n) (hsmooth : s.smoothTransients = true)
    (hnarrow : s.Narrow) (hsum : targetSum s.partitions s.targetSize < 2 ^ 32)
    (hlt : targetSum s.partitions s.longTermTargetSize < targetSum s.partitions s.targetSize) :
    ∃ q < s.partitions, s.longTermTargetSize q < s.targetSize q ∧
      takeOneLine randInt s =
        some { s with targetSize := dec s.targetSize q, draws := s.draws + 1 } := by
  have hpos := excess_pos hnarrow hlt
  have hexcess : s.excess s.partitions < 2 ^ 32 := Nat.lt_of_le_of_lt (excess_le hnarrow) hsum
  have hleft := linesLeft_toNat hexcess
  have hsome : 0 < s.linesLeft := by
    apply UInt32.lt_iff_toNat_lt.mpr
    change 0 < s.linesLeft.toNat
    omega
  have hl : (randInt s.draws (s.linesLeft - 1)).toNat < s.excess s.partitions := by
    have hle := UInt32.le_iff_toNat_le.mp (hrand s.draws (s.linesLeft - 1))
    rw [UInt32.toNat_sub_of_le _ _ (UInt32.le_iff_toNat_le.mpr (by
      change 1 ≤ s.linesLeft.toNat
      omega))] at hle
    change _ ≤ s.linesLeft.toNat - 1 at hle
    omega
  obtain ⟨q, hq, hover, htake⟩ := @takeFrom_spec { s with draws := s.draws + 1 } s.partitions 0
    s.partitions hexcess (randInt s.draws (s.linesLeft - 1)) 0 rfl (Nat.zero_le _) hl
    (Nat.zero_add _)
  refine ⟨q, hq, (left_toNat hnarrow hq).1.mp hover, ?_⟩
  rw [takeOneLine, if_pos ⟨hsmooth, hsome⟩, range_eq_range', htake]

theorem narrow_of_sums (ht : targetSum s.partitions s.targetSize < 2 ^ 31)
    (hl : targetSum s.partitions s.longTermTargetSize < 2 ^ 31) : s.Narrow :=
  fun _ hp => ⟨Nat.lt_of_le_of_lt (le_targetSum hp) ht, Nat.lt_of_le_of_lt (le_targetSum hp) hl⟩

/-- Targets stay narrow on their way. -/
theorem Narrow.toward (h : s.Narrow) (hpart : s'.partitions = s.partitions)
    (hlong : s'.longTermTargetSize = s.longTermTargetSize)
    (htoward : Toward s.partitions s.longTermTargetSize s.targetSize s'.targetSize) :
    s'.Narrow := by
  intro p hp
  rw [hpart] at hp
  rw [hlong]
  obtain ⟨h1, h2⟩ := h p hp
  obtain ⟨h3, h4⟩ := htoward p hp
  simp only [UInt64.le_iff_toNat_le] at h3 h4
  omega

/-- `m` lines are taken away when the targets have `m` more than `total`, which is enough for the
long-term ones. -/
theorem takeLines_spec {total : ℕ} (hrand : ∀ k n, randInt k n ≤ n)
    (hsmooth : s.smoothTransients = true) (hnarrow : s.Narrow)
    (hsum : targetSum s.partitions s.targetSize = total + m) (hbound : total + m < 2 ^ 32)
    (hfits : targetSum s.partitions s.longTermTargetSize ≤ total) :
    ∃ t draws, takeLines randInt m s = some { s with targetSize := t, draws := draws } ∧
      targetSum s.partitions t = total ∧
      Toward s.partitions s.longTermTargetSize s.targetSize t := by
  induction m generalizing s with
  | zero => exact ⟨s.targetSize, s.draws, rfl, hsum, .refl _ _ _⟩
  | succ m ih =>
    obtain ⟨q, hq, hlt, htake⟩ := takeOneLine_spec hrand hsmooth hnarrow (by omega) (by omega)
    have hne : s.targetSize q ≠ 0 := by
      intro hzero
      rw [hzero] at hlt
      exact UInt64.not_lt_zero hlt
    have hone := targetSum_dec hq hne
    have htoward := toward_dec (n := s.partitions) hlt
    obtain ⟨t, draws, hrest, hsum', htoward'⟩ := @ih
      { s with targetSize := dec s.targetSize q, draws := s.draws + 1 } hsmooth
      (hnarrow.toward rfl rfl htoward)
      (by change targetSum s.partitions (dec s.targetSize q) = total + m; omega) (by omega) hfits
    exact ⟨t, draws, by rw [takeLines, htake]; exact hrest, hsum', htoward.trans htoward'⟩

/-! ### New sizes -/

/-- `always in [target,longTermTarget]` -/
theorem clamp {t sp : UInt64} (size : UInt64) (h : t ≤ sp) :
    t ≤ max t (min sp size) ∧ max t (min sp size) ≤ sp := by
  have hmax : ∀ a b : UInt64, max a b = if a ≤ b then b else a := fun _ _ => rfl
  have hmin : ∀ a b : UInt64, min a b = if a ≤ b then a else b := fun _ _ => rfl
  rw [hmax, hmin]
  simp only [UInt64.le_iff_toNat_le] at h ⊢
  split
  · exact ⟨h, Nat.le_refl _⟩
  · split
    · omega
    · omega

/-- One partition gets its long-term target, and a growing one some lines at once. -/
theorem setSize_spec (hsmooth : s.smoothTransients = true) (p : ℕ) (alloc lines : UInt32)
    (hroom : lines.toNat + (s.sizeOf alloc).toNat < 2 ^ 32) :
    ∃ v lines', s.setSize p alloc lines = (lines', { s with
        longTermTargetSize :=
          Function.update s.longTermTargetSize p (s.sizeOf alloc).toUInt64
        targetSize := Function.update s.targetSize p v }) ∧
      (s.targetSize p < (s.sizeOf alloc).toUInt64 →
        s.targetSize p ≤ v ∧ v ≤ (s.sizeOf alloc).toUInt64) ∧
      ((s.sizeOf alloc).toUInt64 ≤ s.targetSize p → v = s.targetSize p) ∧
      lines'.toNat + (s.targetSize p).toNat = lines.toNat + v.toNat := by
  unfold setSize
  dsimp only
  rw [if_pos hsmooth]
  by_cases hgrow : s.targetSize p < (s.sizeOf alloc).toUInt64
  · rw [if_pos hgrow]
    obtain ⟨hlow, hhigh⟩ := clamp (s.size p + 1) (UInt64.le_of_lt hgrow)
    generalize max (s.targetSize p) (min (s.sizeOf alloc).toUInt64 (s.size p + 1)) = v at hlow hhigh
    have hle := UInt64.le_iff_toNat_le.mp hlow
    have hle' := UInt64.le_iff_toNat_le.mp hhigh
    rw [UInt32.toNat_toUInt64] at hle'
    have hsize := (s.sizeOf alloc).toNat_lt
    -- the new target fits a `uint32_t`
    have hv : v.toUInt32.toUInt64 = v := by
      apply UInt64.toNat_inj.mp
      rw [UInt32.toNat_toUInt64, UInt64.toNat_toUInt32, Nat.mod_eq_of_lt (by omega)]
    rw [hv]
    refine ⟨v, _, rfl, fun _ => ⟨hlow, hhigh⟩, fun h => absurd hgrow (UInt64.not_lt.mpr h), ?_⟩
    have hdiff : (v - s.targetSize p).toUInt32.toNat = v.toNat - (s.targetSize p).toNat := by
      rw [UInt64.toNat_toUInt32, UInt64.toNat_sub_of_le _ _ hlow, Nat.mod_eq_of_lt (by omega)]
    rw [toNat_add_lt (by omega), hdiff]
    omega
  · rw [if_neg hgrow]
    refine ⟨s.targetSize p, lines, ?_, fun hlt => absurd hlt hgrow, fun _ => rfl, rfl⟩
    rw [update_eq_self]

/-- The lines of the allocations. -/
def linesOf (s : VantageReplPolicy) (sizes : List UInt32) : ℕ :=
  (sizes.map fun alloc => (s.sizeOf alloc).toNat).sum

/-- The loop over the partitions from `p` on: `lines` counts what the targets have grown by. -/
theorem setSizes_spec {sizes : List UInt32} {lines : UInt32} (hsmooth : s.smoothTransients = true)
    (hp : p + sizes.length = n) (hroom : lines.toNat + s.linesOf sizes < 2 ^ 32) :
    ∃ longTerm t lines', setSizes sizes p lines s =
        (lines', { s with longTermTargetSize := longTerm, targetSize := t }) ∧
      (∀ i < p, longTerm i = s.longTermTargetSize i ∧ t i = s.targetSize i) ∧
      (∀ i (hi : i < sizes.length), longTerm (p + i) = (s.sizeOf sizes[i]).toUInt64 ∧
        (s.targetSize (p + i) < longTerm (p + i) →
          s.targetSize (p + i) ≤ t (p + i) ∧ t (p + i) ≤ longTerm (p + i)) ∧
        (longTerm (p + i) ≤ s.targetSize (p + i) → t (p + i) = s.targetSize (p + i))) ∧
      lines'.toNat + targetSum n s.targetSize = lines.toNat + targetSum n t := by
  induction sizes generalizing p lines s with
  | nil =>
    exact ⟨s.longTermTargetSize, s.targetSize, lines, rfl, fun _ _ => ⟨rfl, rfl⟩,
      fun i hi => absurd hi (Nat.not_lt_zero i), rfl⟩
  | cons alloc sizes ih =>
    have hfirst : s.linesOf (alloc :: sizes) = (s.sizeOf alloc).toNat + s.linesOf sizes := rfl
    rw [List.length_cons] at hp
    obtain ⟨v, lines1, hset, hgrow, hkeep, hlines1⟩ :=
      setSize_spec hsmooth p alloc lines (by omega)
    have hsp : (s.sizeOf alloc).toUInt64.toNat = (s.sizeOf alloc).toNat := UInt32.toNat_toUInt64 _
    have hv : v.toNat ≤ (s.targetSize p).toNat + (s.sizeOf alloc).toNat := by
      by_cases hlt : s.targetSize p < (s.sizeOf alloc).toUInt64
      · have hle := UInt64.le_iff_toNat_le.mp (hgrow hlt).2
        omega
      · rw [hkeep (UInt64.not_lt.mp hlt)]
        omega
    have hroom1 : lines1.toNat + s.linesOf sizes < 2 ^ 32 := by omega
    obtain ⟨longTerm, t, lines', hrest, hbefore, hfrom, hlines⟩ := @ih { s with
        longTermTargetSize := Function.update s.longTermTargetSize p (s.sizeOf alloc).toUInt64
        targetSize := Function.update s.targetSize p v } (p + 1) lines1 hsmooth (by omega) hroom1
    refine ⟨longTerm, t, lines', ?_, fun i hi => ?_, fun i hi => ?_, ?_⟩
    · rw [setSizes, hset]
      exact hrest
    · obtain ⟨h1, h2⟩ := hbefore i (by omega)
      dsimp only at h1 h2
      rw [update_of_ne (by omega)] at h1 h2
      exact ⟨h1, h2⟩
    · cases i with
      | zero =>
        obtain ⟨h1, h2⟩ := hbefore p (by omega)
        dsimp only at h1 h2
        rw [update_self] at h1 h2
        rw [Nat.add_zero, h1, h2]
        exact ⟨rfl, hgrow, hkeep⟩
      | succ i =>
        have hi' : i < sizes.length := by
          rw [List.length_cons] at hi
          omega
        have hnext := hfrom i hi'
        dsimp only at hnext
        rw [show p + 1 + i = p + (i + 1) by omega, update_of_ne (by omega)] at hnext
        exact hnext
    · have hchanged := @targetSum_changed n p s.targetSize
        (Function.update s.targetSize p v) (by omega) fun i _ hi => update_of_ne hi _ _
      rw [update_self] at hchanged
      dsimp only at hlines
      omega

theorem sum_getElem {α : Type*} (l : List α) (f : α → ℕ) (g : ℕ → ℕ)
    (h : ∀ i (hi : i < l.length), g i = f l[i]) :
    ∑ i ∈ Finset.range l.length, g i = (l.map f).sum := by
  induction l generalizing g with
  | nil => rfl
  | cons a l ih =>
    rw [List.length_cons, Finset.sum_range_succ', List.map_cons, List.sum_cons,
      ih (fun i => g (i + 1)) fun i hi => h (i + 1) (Nat.succ_lt_succ hi), h 0 (Nat.succ_pos _)]
    exact Nat.add_comm _ _

/-! ### Runs -/

/-- Between two calls: the targets have `total` lines, which the long-term ones do not exceed. -/
structure Steady (total : ℕ) (s : VantageReplPolicy) : Prop where
  smooth : s.smoothTransients = true
  sum : targetSum s.partitions s.targetSize = total
  fits : targetSum s.partitions s.longTermTargetSize ≤ total

/-- What a call does to the targets. -/
structure MovesTargets (s s' : VantageReplPolicy) : Prop where
  partitions : s'.partitions = s.partitions
  smooth : s'.smoothTransients = s.smoothTransients
  sum : targetSum s.partitions s'.targetSize = targetSum s.partitions s.targetSize
  toward : Toward s.partitions s'.longTermTargetSize s.targetSize s'.targetSize

theorem Steady.narrow {total : ℕ} (h : s.Steady total) (htotal : total < 2 ^ 31) : s.Narrow :=
  narrow_of_sums (h.sum ▸ htotal) (Nat.lt_of_le_of_lt h.fits htotal)

theorem setPartitionSizes_spec {total : ℕ} {sizes : List UInt32} (hrand : ∀ k n, randInt k n ≤ n)
    (h : s.Steady total) (htotal : total < 2 ^ 31) (hlength : sizes.length = s.partitions)
    (hgran : s.partGranularity ≠ 0) (hfits : s.linesOf sizes ≤ total) :
    ∃ s', setPartitionSizes randInt s sizes = some s' ∧ s'.Steady total ∧ s.MovesTargets s' := by
  obtain ⟨longTerm, t, lines, hsizes, -, hfrom, hlines⟩ := @setSizes_spec s 0 s.partitions sizes 0
    h.smooth (by omega) (by change 0 + s.linesOf sizes < 2 ^ 32; omega)
  have hlong : targetSum s.partitions longTerm = s.linesOf sizes := by
    rw [← hlength]
    apply sum_getElem
    intro i hi
    have hnew := (hfrom i hi).1
    rw [Nat.zero_add] at hnew
    rw [hnew, UInt32.toNat_toUInt64]
  have hgrown : Toward s.partitions longTerm s.targetSize t := by
    apply toward_of_grown
    intro i hi
    have hi' := (hfrom i (by omega)).2
    rwa [Nat.zero_add] at hi'
  have hsum := h.sum
  have hbound := hgrown.targetSum_le
  have hlines' : targetSum s.partitions t = total + lines.toNat := by
    change lines.toNat + _ = 0 + _ at hlines
    omega
  have hnarrow : Narrow { s with longTermTargetSize := longTerm } :=
    narrow_of_sums (by change targetSum s.partitions s.targetSize < 2 ^ 31; omega)
      (by change targetSum s.partitions longTerm < 2 ^ 31; omega)
  have hnarrow' : Narrow { s with longTermTargetSize := longTerm, targetSize := t } :=
    hnarrow.toward rfl rfl hgrown
  obtain ⟨t', draws, htake, hsum', htoward⟩ := @takeLines_spec randInt
    { s with longTermTargetSize := longTerm, targetSize := t } lines.toNat total hrand h.smooth
    hnarrow' hlines' (by omega) (by change targetSum s.partitions longTerm ≤ total; omega)
  refine ⟨{ s with longTermTargetSize := longTerm, targetSize := t', draws := draws }, ?_,
    ⟨h.smooth, hsum', ?_⟩, ⟨rfl, rfl, hsum'.trans hsum.symm, hgrown.trans htoward⟩⟩
  · rw [setPartitionSizes, if_pos ⟨hlength, hgran⟩, hsizes]
    exact htake
  · change targetSum s.partitions longTerm ≤ total
    omega

/-- The targets stay as they are. -/
structure SameTargets (s s' : VantageReplPolicy) : Prop where
  partitions : s'.partitions = s.partitions
  smooth : s'.smoothTransients = s.smoothTransients
  targetSize : s'.targetSize = s.targetSize
  longTermTargetSize : s'.longTermTargetSize = s.longTermTargetSize

theorem SameTargets.refl (s : VantageReplPolicy) : s.SameTargets s := ⟨rfl, rfl, rfl, rfl⟩

theorem SameTargets.trans (h : s.SameTargets s1) (h' : s1.SameTargets s') : s.SameTargets s' where
  partitions := h'.partitions.trans h.partitions
  smooth := h'.smooth.trans h.smooth
  targetSize := h'.targetSize.trans h.targetSize
  longTermTargetSize := h'.longTermTargetSize.trans h.longTermTargetSize

theorem SameTargets.steady {total : ℕ} (h : s.SameTargets s') (hs : s.Steady total) :
    s'.Steady total ∧ s.MovesTargets s' := by
  obtain ⟨hpart, hsmooth, htarget, hlong⟩ := h
  refine ⟨⟨hsmooth.trans hs.smooth, ?_, ?_⟩, ⟨hpart, hsmooth, by rw [htarget], ?_⟩⟩
  · rw [hpart, htarget]
    exact hs.sum
  · rw [hpart, hlong]
    exact hs.fits
  · rw [htarget]
    exact .refl _ _ _

/-- A miss of a growing partition takes a line for it. -/
theorem miss_spec {total : ℕ} (hrand : ∀ k n, randInt k n ≤ n) (h : s.Steady total)
    (htotal : total < 2 ^ 31) (hpart : part < s.partitions) (id : ℕ) :
    ∃ s', s.miss randInt id part = some s' ∧ s'.Steady total ∧ s.MovesTargets s' := by
  have hfill : s.SameTargets (s.fill id part) := ⟨rfl, rfl, rfl, rfl⟩
  unfold miss
  dsimp only
  by_cases hgrow : (s.fill id part).targetSize part < (s.fill id part).longTermTargetSize part
  · rw [if_pos hgrow, if_pos (show (s.fill id part).smoothTransients = true from h.smooth)]
    have hgrow' : s.targetSize part < s.longTermTargetSize part := hgrow
    have hlt := UInt64.lt_iff_toNat_lt.mp hgrow'
    have hnarrow := h.narrow htotal
    have hsmall := (hnarrow part hpart).2
    have hinc := targetSum_inc (t := s.targetSize) hpart (by omega)
    have htoward := toward_inc (n := s.partitions) hgrow'
    obtain ⟨t, draws, htake, hsum, htoward'⟩ := @takeLines_spec randInt
      { s.fill id part with targetSize := inc s.targetSize part } 1 total hrand h.smooth
      (hnarrow.toward rfl rfl htoward) (by rw [← h.sum]; exact hinc) (by omega) h.fits
    obtain ⟨s2, hs2, hlast⟩ := Option.bind_eq_some_iff.mp htake
    obtain rfl := Option.some.inj hlast
    exact ⟨_, hs2, ⟨h.smooth, hsum, h.fits⟩, ⟨rfl, rfl, hsum.trans h.sum.symm,
      htoward.trans htoward'⟩⟩
  · rw [if_neg hgrow]
    obtain ⟨hsteady, hmoves⟩ := hfill.steady h
    exact ⟨_, rfl, hsteady, hmoves⟩

theorem hit_same (s : VantageReplPolicy) (id part : ℕ) : s.SameTargets (s.hit id part) := by
  unfold hit
  dsimp only
  split
  · exact ⟨rfl, rfl, rfl, rfl⟩
  · exact ⟨rfl, rfl, rfl, rfl⟩

theorem update_spec {total : ℕ} (hrand : ∀ k n, randInt k n ≤ n) (h : s.Steady total)
    (htotal : total < 2 ^ 31) (hpart : part < s.partitions) (hid : id < s.totalSize.toNat) :
    ∃ s', s.update randInt id part = some s' ∧ s'.Steady total ∧ s.MovesTargets s' := by
  have htouch : ∀ s1 : VantageReplPolicy, s1.SameTargets (s1.touch id) := fun _ =>
    ⟨rfl, rfl, rfl, rfl⟩
  unfold update
  rw [if_pos hid]
  by_cases hts : 0 < (s.array id).ts
  · rw [if_pos hts]
    obtain ⟨hsteady, hmoves⟩ := ((hit_same s id part).trans (htouch _)).steady h
    exact ⟨_, rfl, hsteady, hmoves⟩
  · rw [if_neg hts]
    obtain ⟨s1, hs1, hsteady1, hmoves1⟩ := miss_spec hrand h htotal hpart id
    obtain ⟨hsteady, -⟩ := (htouch s1).steady hsteady1
    refine ⟨s1.touch id, by rw [hs1, Option.map_some], hsteady, ?_⟩
    exact ⟨hmoves1.partitions, hmoves1.smooth, hmoves1.sum, hmoves1.toward⟩

theorem considerDemotion_targets (h : s.considerDemotion id = some s') : s.SameTargets s' := by
  obtain rfl | ⟨s1, partInfo, rfl | ⟨-, rfl⟩, rfl⟩ := considerDemotion_cases h
  · exact .refl _
  · exact ⟨rfl, rfl, rfl, rfl⟩
  · exact ⟨rfl, rfl, rfl, rfl⟩

theorem foldlM_targets {f : VantageReplPolicy → ℕ → Option VantageReplPolicy}
    (hf : ∀ s s' id, f s id = some s' → s.SameTargets s') {cands : List ℕ}
    (h : cands.foldlM f s = some s') : s.SameTargets s' := by
  induction cands generalizing s with
  | nil =>
    cases h
    exact .refl _
  | cons id cands ih =>
    rw [List.foldlM_cons] at h
    obtain ⟨s1, h1, hrest⟩ := Option.bind_eq_some_iff.mp h
    exact (hf s s1 id h1).trans (ih hrest)

theorem rank_targets {addr : ℕ} {cands : List ℕ} (h : s.rank addr cands = some (id, s')) :
    s.SameTargets s' := by
  obtain ⟨s1, h1, h2⟩ := rank_cases h
  have hstart : s.SameTargets { s with incomingLineAddr := addr } := ⟨rfl, rfl, rfl, rfl⟩
  refine (hstart.trans (foldlM_targets (fun s s' id h => ?_) h1)).trans
    (foldlM_targets (fun s s' id h => considerDemotion_targets h) h2)
  obtain rfl := recordCandidate_cases h
  exact ⟨rfl, rfl, rfl, rfl⟩

/-- Hits and misses are of lines of the cache by partitions that the mapper knows, and new sizes are
for all partitions. -/
def Requests : VantageOp → VantageReplPolicy → Prop
  | .update id part, s => id < s.totalSize.toNat ∧ part < s.partitions
  | .setPartitionSizes sizes, s => sizes.length = s.partitions ∧ s.partGranularity ≠ 0
  | _, _ => True

instance : ∀ (op : VantageOp) (s : VantageReplPolicy), Decidable (Requests op s)
  | .update id part, s => inferInstanceAs (Decidable (id < s.totalSize.toNat ∧ part < s.partitions))
  | .setPartitionSizes sizes, s =>
    inferInstanceAs (Decidable (sizes.length = s.partitions ∧ s.partGranularity ≠ 0))
  | .rank _ _, _ | .replaced _, _ => isTrue trivial

/-- The new long-term targets need no more lines than the targets have. -/
def Fits : VantageOp → VantageReplPolicy → Prop
  | .setPartitionSizes sizes, s => s.linesOf sizes ≤ targetSum s.partitions s.targetSize
  | _, _ => True

instance : ∀ (op : VantageOp) (s : VantageReplPolicy), Decidable (Fits op s)
  | .setPartitionSizes sizes, s =>
    inferInstanceAs (Decidable (s.linesOf sizes ≤ targetSum s.partitions s.targetSize))
  | .update _ _, _ | .rank _ _, _ | .replaced _, _ => isTrue trivial

/-- A hit, a miss or a call for new sizes goes through, and each call keeps the sum of the targets
and moves them towards the long-term ones. -/
structure Conserves (randInt : ℕ → UInt32 → UInt32) (op : VantageOp) (s : VantageReplPolicy) :
    Prop where
  update : ∀ id part, op = .update id part → (step randInt op s).isSome
  setPartitionSizes : ∀ sizes, op = .setPartitionSizes sizes → (step randInt op s).isSome
  moves : ∀ s', step randInt op s = some s' → s.MovesTargets s'

theorem step_conserves {total : ℕ} (hrand : ∀ k n, randInt k n ≤ n) (htotal : total < 2 ^ 31)
    (op : VantageOp) (s : VantageReplPolicy) (h : s.Steady total)
    (hop : Requests op s ∧ Fits op s) :
    Conserves randInt op s ∧ ∀ s', step randInt op s = some s' → s'.Steady total := by
  have hdone : ∀ {s1}, step randInt op s = some s1 → s1.Steady total → s.MovesTargets s1 →
      Conserves randInt op s ∧ ∀ s', step randInt op s = some s' → s'.Steady total := by
    intro s1 h1 hsteady hmoves
    have hsome : (step randInt op s).isSome := by rw [h1]; rfl
    constructor
    · refine ⟨fun _ _ _ => hsome, fun _ _ => hsome, fun s' hs' => ?_⟩
      obtain rfl := Option.some.inj (h1.symm.trans hs')
      exact hmoves
    · intro s' hs'
      obtain rfl := Option.some.inj (h1.symm.trans hs')
      exact hsteady
  have hsame : (∀ id part, op ≠ .update id part) → (∀ sizes, op ≠ .setPartitionSizes sizes) →
      (∀ s', step randInt op s = some s' → s.SameTargets s') →
      Conserves randInt op s ∧ ∀ s', step randInt op s = some s' → s'.Steady total := by
    intro hupdate hset hkeep
    exact ⟨⟨fun id part heq => absurd heq (hupdate id part),
      fun sizes heq => absurd heq (hset sizes),
      fun s' hs' => ((hkeep s' hs').steady h).2⟩, fun s' hs' => ((hkeep s' hs').steady h).1⟩
  cases op with
  | update id part =>
    obtain ⟨s1, h1, hsteady, hmoves⟩ := update_spec hrand h htotal hop.1.2 hop.1.1
    exact hdone h1 hsteady hmoves
  | rank addr cands =>
    apply hsame
    case a => intro id part heq; cases heq
    case a => intro sizes heq; cases heq
    case a =>
      intro s' hs'
      obtain ⟨⟨id, s1⟩, hrank, rfl⟩ := Option.map_eq_some_iff.mp hs'
      exact rank_targets hrank
  | replaced id =>
    apply hsame
    case a => intro id part heq; cases heq
    case a => intro sizes heq; cases heq
    case a =>
      intro s' hs'
      rw [step, replaced] at hs'
      split at hs'
      · obtain rfl := Option.some.inj hs'
        exact ⟨rfl, rfl, rfl, rfl⟩
      · cases hs'
  | setPartitionSizes sizes =>
    obtain ⟨s1, h1, hsteady, hmoves⟩ := setPartitionSizes_spec hrand h htotal hop.1.1 hop.1.2
      (h.sum ▸ hop.2)
    exact hdone h1 hsteady hmoves

section Start

variable {totalSize assoc targetManagedSize partGranularity : UInt32}
  {partSlack maxAperture : Float}

/-- The first targets are equal parts of the managed lines, without the remainder. -/
theorem start_steady (partitions : ℕ) (hmanaged : targetManagedSize.toNat < 2 ^ 31) :
    ∃ total < 2 ^ 31, (start partitions totalSize assoc targetManagedSize partSlack maxAperture
      partGranularity true).Steady total := by
  refine ⟨_, ?_, ⟨rfl, rfl, Nat.le_refl _⟩⟩
  have hle : targetSum partitions (fun p => if p = partitions then 0
      else UInt64.ofNat (targetManagedSize.toNat / partitions)) ≤
      ∑ _p ∈ Finset.range partitions, targetManagedSize.toNat / partitions := by
    apply Finset.sum_le_sum
    intro p hp
    dsimp only
    rw [if_neg (Nat.ne_of_lt (Finset.mem_range.mp hp)), UInt64.toNat_ofNat']
    exact Nat.mod_le _ _
  rw [Finset.sum_const_nat fun _ _ => rfl, Finset.card_range] at hle
  exact Nat.lt_of_le_of_lt (Nat.le_trans hle (Nat.mul_div_le _ _)) hmanaged

end Start

/-- As long as no call asks for more lines than the targets have, there is a line to take whenever a
partition grows; the targets keep their sum, and go towards the long-term ones and not past them. -/
theorem targets_conserved (randInt : ℕ → UInt32 → UInt32) (hrand : ∀ k n, randInt k n ≤ n)
    (partitions : ℕ) (totalSize assoc targetManagedSize : UInt32) (partSlack maxAperture : Float)
    (partGranularity : UInt32) (hmanaged : targetManagedSize.toNat < 2 ^ 31) (ops : List VantageOp)
    (hops : Along (step randInt) Requests ops (start partitions totalSize assoc targetManagedSize
      partSlack maxAperture partGranularity true))
    (hfits : Along (step randInt) Fits ops (start partitions totalSize assoc targetManagedSize
      partSlack maxAperture partGranularity true)) :
    Along (step randInt) (Conserves randInt) ops (start partitions totalSize assoc
      targetManagedSize partSlack maxAperture partGranularity true) := by
  obtain ⟨total, htotal, hsteady⟩ := start_steady partitions hmanaged
  exact (along_and hops hfits).of_keeps (step_conserves hrand htotal) hsteady

/-- Three of four lines for two partitions, of which each gets one at first. -/
def three : VantageReplPolicy := start 2 4 4 3 0.05 0.4 4 true

/-- Partition 0 is to have two of the three, and misses. -/
def growsByOne : List VantageOp :=
  [.setPartitionSizes [2, 1], .rank 7 [0, 1, 2, 3], .replaced 0, .update 0 0]

/-- No target is above its long-term one then. -/
theorem no_line_to_take : three.linesOf [2, 1] = 3 ∧
    Along (step fun _ n => n) Requests growsByOne three ∧
    ¬Along (step fun _ n => n) (Conserves fun _ n => n) growsByOne three := by
  refine ⟨by decide +kernel, by decide +kernel, fun hall => ?_⟩
  have hfails : (run (step fun _ n => n) growsByOne.dropLast three).map
      (fun s => (step (fun _ n => n) (.update 0 0) s).isSome) = some false := by decide +kernel
  obtain ⟨s, hrun, hs⟩ := Option.map_eq_some_iff.mp hfails
  obtain ⟨-, hlast⟩ := @along_append _ _ _ _ growsByOne.dropLast [.update 0 0] three hall
  have hsome := (hlast s hrun).1.update 0 0 rfl
  rw [hs] at hsome
  cases hsome

/-- Two lines for two partitions, which is what the first targets have. -/
theorem targets_conserved_two :
    Along (step fun _ n => n) (Conserves fun _ n => n)
      [.setPartitionSizes [2, 0], .rank 7 [0, 1, 2, 3], .replaced 0, .update 0 0] three :=
  targets_conserved (fun _ n => n) (fun _ n => UInt32.le_refl n) 2 4 4 3 0.05 0.4 4 (by decide) _
    (by decide +kernel) (by decide +kernel)

end VantageReplPolicy

end Doppelganger.Part
