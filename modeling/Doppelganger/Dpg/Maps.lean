import Mathlib.Algebra.Group.Nat.Defs
import Mathlib.Algebra.Order.Group.Unbundled.Int

/-! `DPG_Array::get_map` for a line in a region of integers.  Two theorems say when the map of a
line tells what it is meant to tell: when two lines have the same map exactly if the fields that it
is packed from are the same, and when the hashes are computed without overflow and are those of the
values clamped to the limits. -/

namespace Doppelganger.Dpg.Maps

def Mbits : Nat := 12

/-- The last enumerator of `MESIState`, which the shifts of `get_map` name in place of `Mbits`. -/
def M : Nat := 3

/-- The values of `int`. -/
def IsInt (x : Int) : Prop := -2 ^ 31 ≤ x ∧ x < 2 ^ 31

instance (x : Int) : Decidable (IsInt x) := inferInstanceAs (Decidable (_ ∧ _))

/-- The result of an expression of type `int`, which is undefined when it overflows. -/
def int (x : Int) : Option Int := if IsInt x then some x else none

abbrev Block := Vector Int32 16

def values (block : Block) : List Int := block.toList.map Int32.toInt

/-- The locals of the loop over a block. -/
structure Totals where
  min : Int
  max : Int
  avg : Int
deriving DecidableEq, Repr

def Totals.add (t : Totals) (value : Int) : Option Totals :=
  (int (t.avg + value)).map fun avg =>
    { min := if value < t.min then value else t.min
      max := if value > t.max then value else t.max
      avg := avg }

def totals (value : List Int) : Option Totals := value.foldlM Totals.add ⟨2 ^ 31 - 1, -2 ^ 31, 0⟩

/-- The average and the range. -/
def avgRange (value : List Int) : Option (Int × Int) :=
  (totals value).bind fun t => (int (t.max - t.min)).map fun range => (t.avg.tdiv 16, range)

/-- The hash of the average or the range. -/
def hash (imin imax x : Int) : Option (BitVec 32) :=
  (int (x - imin)).bind fun shifted => (int (shifted * (2 ^ Mbits - 1))).bind fun scaled =>
    (int (imax - imin)).bind fun span =>
      if span = 0 then none else (int (scaled.tdiv span)).map (BitVec.ofInt 32)

structure Hashes where
  hfAvg : BitVec 32
  hfRange : BitVec 32
deriving DecidableEq, Repr

def hashes (imin imax : Int) (block : Block) : Option Hashes :=
  (avgRange (values block)).bind fun (avg, range) => (hash imin imax avg).bind fun hfAvg =>
    (hash imin imax range).map fun hfRange => ⟨hfAvg, hfRange⟩

def Hashes.pack (h : Hashes) : BitVec 32 := ((h.hfRange >>> (M / 2)) <<< M) ||| h.hfAvg

def getMap (imin imax : Int) (block : Block) : Option Int :=
  (hashes imin imax block).map fun h => h.pack.toInt

/-! ### Packing -/

/-- The hashes fit in `Mbits` bits. -/
def Hashes.Fits (h : Hashes) : Prop := h.hfAvg.toNat < 2 ^ Mbits ∧ h.hfRange.toNat < 2 ^ Mbits

instance (h : Hashes) : Decidable h.Fits := inferInstanceAs (Decidable (_ ∧ _))

/-- The fields that the map is to be made of. -/
def Hashes.fields (h : Hashes) : BitVec 32 × BitVec 32 := (h.hfAvg, h.hfRange >>> (Mbits / 2))

/-- Bit `k` of the range hash and bit `k + 2` of the average hash have the same place in the map. -/
def Hashes.overlay (h : Hashes) (k : Nat) : Bool := h.hfRange.getLsbD k || h.hfAvg.getLsbD (k + 2)

section

variable {h h' : Hashes} {imin imax x : Int} {block block' : Block}

theorem getLsbD_of_lt {x : BitVec 32} (hx : x.toNat < 2 ^ Mbits) {k : Nat} (hk : Mbits ≤ k) :
    x.getLsbD k = false := by
  rw [← BitVec.testBit_toNat]
  exact Nat.testBit_lt_two_pow (hx.trans_le (Nat.pow_le_pow_right Nat.two_pos hk))

theorem getLsbD_pack (hfit : h.Fits) (k : Nat) :
    h.pack.getLsbD k = if k < M then h.hfAvg.getLsbD k else h.overlay (k - 2) := by
  unfold Hashes.pack Hashes.overlay M
  rw [BitVec.getLsbD_or, BitVec.getLsbD_shiftLeft, BitVec.getLsbD_ushiftRight]
  split
  case isTrue hlow => simp [hlow]
  case isFalse hhigh =>
    have hrange : 3 / 2 + (k - 3) = k - 2 := by omega
    have havg : k - 2 + 2 = k := by omega
    rw [hrange, havg]
    by_cases hlt : k < 32
    · simp [hlt, hhigh]
    · have hzero := getLsbD_of_lt hfit.2 (show Mbits ≤ k - 2 by unfold Mbits; omega)
      rw [hzero]
      simp

theorem pack_eq_iff (hfit : h.Fits) (hfit' : h'.Fits) : h.pack = h'.pack ↔
    (∀ k < M, h.hfAvg.getLsbD k = h'.hfAvg.getLsbD k) ∧ ∀ k ≥ 1, h.overlay k = h'.overlay k := by
  constructor
  · intro heq
    refine ⟨fun k hk => ?_, fun k hk => ?_⟩
    · have hbit := getLsbD_pack hfit k
      rw [heq, getLsbD_pack hfit', if_pos hk, if_pos hk] at hbit
      exact hbit.symm
    · have hhigh : ¬k + 2 < M := by unfold M; omega
      have hbit := getLsbD_pack hfit (k + 2)
      rw [heq, getLsbD_pack hfit', if_neg hhigh, if_neg hhigh] at hbit
      exact hbit.symm
  · rintro ⟨hlow, hover⟩
    refine BitVec.eq_of_getLsbD_eq fun k _ => ?_
    rw [getLsbD_pack hfit, getLsbD_pack hfit']
    split
    case isTrue hk => exact hlow k hk
    case isFalse hk => exact hover (k - 2) (by unfold M at hk; omega)

/-- When the fields are the same, the maps are when the range hashes differ only where the average
hash covers it. -/
theorem overlay_of_fields (hfields : h.fields = h'.fields) :
    ((∀ k < M, h.hfAvg.getLsbD k = h'.hfAvg.getLsbD k) ∧ ∀ k ≥ 1, h.overlay k = h'.overlay k) ↔
      ∀ k ≥ 1, k < Mbits / 2 → h.hfRange.getLsbD k ≠ h'.hfRange.getLsbD k →
        h.hfAvg.getLsbD (k + 2) = true := by
  obtain ⟨havg, hrange⟩ := Prod.mk.inj hfields
  rw [← havg, and_iff_right fun _ _ => rfl]
  have hhigh : ∀ k, Mbits / 2 ≤ k → h.hfRange.getLsbD k = h'.hfRange.getLsbD k := by
    intro k hk
    have hbit := congrArg (fun x : BitVec 32 => x.getLsbD (k - Mbits / 2)) hrange
    simp only [BitVec.getLsbD_ushiftRight] at hbit
    rwa [Nat.add_sub_of_le hk] at hbit
  unfold Hashes.overlay
  rw [← havg]
  refine forall₂_congr fun k hk => ?_
  by_cases hlt : k < Mbits / 2
  · simp only [hlt, forall_const]
    cases h.hfAvg.getLsbD (k + 2) <;> simp
  · simp [hlt, hhigh k (Nat.le_of_not_lt hlt)]

/-- Two blocks with hashes that fit have the same map exactly when their fields are the same, if and
only if either the fields are the same and what else the range hashes differ in is covered by the
average hash, or they are not and differ in a place of the map. -/
theorem same_map_iff (hblock : hashes imin imax block = some h)
    (hblock' : hashes imin imax block' = some h') (hfit : h.Fits) (hfit' : h'.Fits) :
    (getMap imin imax block = getMap imin imax block' ↔ h.fields = h'.fields) ↔
      if h.fields = h'.fields then
        ∀ k ≥ 1, k < Mbits / 2 → h.hfRange.getLsbD k ≠ h'.hfRange.getLsbD k →
          h.hfAvg.getLsbD (k + 2) = true
      else (∃ k < M, h.hfAvg.getLsbD k ≠ h'.hfAvg.getLsbD k) ∨
        ∃ k ≥ 1, h.overlay k ≠ h'.overlay k := by
  have hmap : getMap imin imax block = getMap imin imax block' ↔ h.pack = h'.pack := by
    rw [getMap, getMap, hblock, hblock', Option.map_some, Option.map_some, Option.some_inj,
      BitVec.toInt_inj]
  rw [hmap, pack_eq_iff hfit hfit']
  split
  case isTrue hfields => rw [iff_true_right hfields, overlay_of_fields hfields]
  case isFalse hfields =>
    rw [iff_false_right hfields, not_and_or]
    push Not
    rfl

end

def zeros : Block := Vector.replicate 16 0

/-- One value is 2, which the average loses. -/
def spread : Block := zeros.set 0 2

def eights : Block := Vector.replicate 16 8

theorem same_map_iff_zeros :
    (getMap 0 4095 zeros = getMap 0 4095 spread ↔ Hashes.fields ⟨0, 0⟩ = Hashes.fields ⟨0, 2⟩) ↔
      if Hashes.fields ⟨0, 0⟩ = Hashes.fields ⟨0, 2⟩ then
        ∀ k ≥ 1, k < Mbits / 2 → (0 : BitVec 32).getLsbD k ≠ (2 : BitVec 32).getLsbD k →
          (0 : BitVec 32).getLsbD (k + 2) = true
      else (∃ k < M, (0 : BitVec 32).getLsbD k ≠ (0 : BitVec 32).getLsbD k) ∨
        ∃ k ≥ 1, Hashes.overlay ⟨0, 0⟩ k ≠ Hashes.overlay ⟨0, 2⟩ k :=
  same_map_iff (h := ⟨0, 0⟩) (by decide) (by decide) (by decide) (by decide)

/-- Blocks with other averages share a map, and blocks with the same fields do not. -/
theorem maps_leak :
    (¬∀ (block block' : Block) (h h' : Hashes), hashes 0 4095 block = some h →
      hashes 0 4095 block' = some h' → h.Fits → h'.Fits →
      getMap 0 4095 block = getMap 0 4095 block' → h.fields = h'.fields) ∧
    ¬∀ (block block' : Block) (h h' : Hashes), hashes 0 4095 block = some h →
      hashes 0 4095 block' = some h' → h.Fits → h'.Fits →
      h.fields = h'.fields → getMap 0 4095 block = getMap 0 4095 block' := by
  constructor
  · intro hall
    have hfields := hall eights spread ⟨8, 0⟩ ⟨0, 2⟩ (by decide) (by decide) (by decide) (by decide)
      (by decide)
    revert hfields
    decide
  · intro hall
    have hmap := hall zeros spread ⟨0, 0⟩ ⟨0, 2⟩ (by decide) (by decide) (by decide) (by decide)
      (by decide)
    revert hmap
    decide

/-! ### Hashes -/

section

variable {imin imax x y : Int} {value : List Int} {block : Block}

/-- The average of a block. -/
def average (value : List Int) : Int := (value.foldl (· + ·) 0).tdiv 16

/-- The range of a block. -/
def range (value : List Int) : Int := value.foldl max (-2 ^ 31) - value.foldl min (2 ^ 31 - 1)

/-- The values of a block, each one outside the limits clamped to them. -/
def clampedValues (imin imax : Int) (block : Block) : List Int :=
  (values block).map fun v => max imin (min v imax)

/-- The hash of the average or the range when no `int` overflows. -/
def exactHash (imin imax x : Int) : Int := ((x - imin) * (2 ^ Mbits - 1)).tdiv (imax - imin)

/-- The scaled value does not overflow, and is not beyond the limits by a step of the hash. -/
structure Scales (imin imax x : Int) : Prop where
  low : -(imax - imin) < (x - imin) * (2 ^ Mbits - 1)
  high : (x - imin) * (2 ^ Mbits - 1) < 2 ^ Mbits * (imax - imin)
  int : (x - imin) * (2 ^ Mbits - 1) < 2 ^ 31

/-- The second of two values is not below the limits by a step of the hash either, and no end of a
step is between the two. -/
structure SameStep (imin imax x y : Int) : Prop where
  low : -(imax - imin) < (y - imin) * (2 ^ Mbits - 1)
  steps : ∀ k ≥ 1, k * (imax - imin) ≤ (x - imin) * (2 ^ Mbits - 1) ↔
    k * (imax - imin) ≤ (y - imin) * (2 ^ Mbits - 1)

/-- No sum of the first values overflows, nor does the range. -/
structure Sums (value : List Int) : Prop where
  sums : ∀ first, first <+: value → IsInt (first.foldl (· + ·) 0)
  range : IsInt (range value)

theorem int_eq_some : int x = some y ↔ IsInt x ∧ x = y := by
  rw [int, Option.ite_none_right_eq_some, Option.some_inj]

theorem totals_eq {t t' : Totals} (ht : IsInt t.avg) : value.foldlM Totals.add t = some t' ↔
    (∀ first, first <+: value → IsInt (first.foldl (· + ·) t.avg)) ∧
      t' = ⟨value.foldl min t.min, value.foldl max t.max, value.foldl (· + ·) t.avg⟩ := by
  induction value generalizing t with
  | nil =>
    refine ⟨fun h => ⟨fun first hfirst => ?_, (Option.some.inj h).symm⟩, fun h => h.2 ▸ rfl⟩
    rw [List.prefix_nil.mp hfirst]
    exact ht
  | cons v value ih =>
    have hmin : (if v < t.min then v else t.min) = min t.min v := by
      rw [min_def]
      split <;> split <;> omega
    have hmax : (if v > t.max then v else t.max) = max t.max v := by
      rw [max_def]
      split <;> split <;> omega
    rw [List.foldlM_cons, Totals.add, hmin, hmax]
    by_cases hv : IsInt (t.avg + v)
    · rw [int, if_pos hv]
      refine (ih hv).trans (and_congr_left' ⟨fun h first hfirst => ?_, fun h first hfirst => ?_⟩)
      · obtain rfl | ⟨rest, rfl, hrest⟩ := List.prefix_cons_iff.mp hfirst
        · exact ht
        · exact h rest hrest
      · exact h (v :: first) (List.cons_prefix_cons.mpr ⟨rfl, hfirst⟩)
    · rw [int, if_neg hv]
      refine iff_of_false nofun fun h => hv ?_
      exact h.1 [v] (List.cons_prefix_cons.mpr ⟨rfl, List.nil_prefix⟩)

theorem avgRange_eq {avg rng : Int} : avgRange value = some (avg, rng) ↔
    Sums value ∧ avg = average value ∧ rng = range value := by
  unfold avgRange
  rw [Option.bind_eq_some_iff]
  constructor
  · rintro ⟨t, ht, hrange⟩
    obtain ⟨hsums, rfl⟩ := (totals_eq (by decide)).mp ht
    obtain ⟨r, hr, heq⟩ := Option.map_eq_some_iff.mp hrange
    obtain ⟨hint, rfl⟩ := int_eq_some.mp hr
    obtain ⟨rfl, rfl⟩ := Prod.mk.inj heq
    exact ⟨⟨hsums, hint⟩, rfl, rfl⟩
  · rintro ⟨⟨hsums, hint⟩, rfl, rfl⟩
    exact ⟨_, (totals_eq (by decide)).mpr ⟨hsums, rfl⟩, Option.map_eq_some_iff.mpr
      ⟨_, int_eq_some.mpr ⟨hint, rfl⟩, rfl⟩⟩

theorem toNat_ofInt {q : Int} (hq : IsInt q) (hfit : (BitVec.ofInt 32 q).toNat < 2 ^ Mbits) :
    0 ≤ q ∧ q < 2 ^ Mbits ∧ ((BitVec.ofInt 32 q).toNat : Int) = q := by
  obtain ⟨hlow, hhigh⟩ := hq
  rw [BitVec.toNat_ofInt] at hfit ⊢
  unfold Mbits at hfit ⊢
  omega

theorem ofInt_fits {q : Int} (hlow : 0 ≤ q) (hhigh : q < 2 ^ Mbits) :
    (BitVec.ofInt 32 q).toNat < 2 ^ Mbits ∧ ((BitVec.ofInt 32 q).toNat : Int) = q := by
  rw [BitVec.toNat_ofInt]
  unfold Mbits at hhigh ⊢
  omega

theorem tdiv_nonneg_iff {scaled span : Int} (hspan : 0 < span) :
    0 ≤ scaled.tdiv span ↔ -span < scaled := by
  by_cases hscaled : 0 ≤ scaled
  · exact iff_of_true (Int.tdiv_nonneg hscaled hspan.le) (by omega)
  · obtain ⟨n, rfl⟩ : ∃ n, scaled = -n := ⟨-scaled, by omega⟩
    have hn : 0 ≤ n := by omega
    rw [Int.neg_tdiv, Int.tdiv_eq_ediv_of_nonneg hn]
    have hquot := Int.ediv_nonneg hn hspan.le
    have hone : n / span < 1 ↔ n < 1 * span := Int.ediv_lt_iff_lt_mul hspan
    omega

theorem le_tdiv_iff {scaled span k : Int} (hspan : 0 < span) (hk : 1 ≤ k) :
    k ≤ scaled.tdiv span ↔ k * span ≤ scaled := by
  by_cases hscaled : 0 ≤ scaled
  · rw [Int.tdiv_eq_ediv_of_nonneg hscaled, Int.le_ediv_iff_mul_le hspan]
  · have hquot : 0 ≤ (-scaled).tdiv span := Int.tdiv_nonneg (by omega) hspan.le
    have hmul : 0 < k * span := Int.mul_pos hk hspan
    rw [Int.neg_tdiv] at hquot
    exact iff_of_false (by omega) (by omega)

/-- The quotient is a hash when the scaled value is not beyond the limits by a step. -/
theorem tdiv_fits {scaled span : Int} (hspan : 0 < span) :
    (0 ≤ scaled.tdiv span ∧ scaled.tdiv span < 2 ^ Mbits) ↔
      -span < scaled ∧ scaled < 2 ^ Mbits * span := by
  have hhigh : 2 ^ Mbits ≤ scaled.tdiv span ↔ 2 ^ Mbits * span ≤ scaled :=
    le_tdiv_iff hspan (by decide)
  rw [tdiv_nonneg_iff hspan, ← Int.not_le (a := 2 ^ Mbits), hhigh, Int.not_le]

/-- Two quotients are the same when the same positive multiples are below what is divided. -/
theorem tdiv_eq_iff {scaled scaled' span : Int} (hspan : 0 < span)
    (hlow : 0 ≤ scaled.tdiv span) : scaled.tdiv span = scaled'.tdiv span ↔
      -span < scaled' ∧ ∀ k ≥ 1, k * span ≤ scaled ↔ k * span ≤ scaled' := by
  constructor
  · intro heq
    refine ⟨(tdiv_nonneg_iff hspan).mp (heq ▸ hlow), fun k hk => ?_⟩
    rw [← le_tdiv_iff hspan hk, ← le_tdiv_iff hspan hk, heq]
  · rintro ⟨hlow', hsteps⟩
    have hle : ∀ {x y : Int}, 0 ≤ y.tdiv span → (∀ k ≥ 1, k * span ≤ x → k * span ≤ y) →
        x.tdiv span ≤ y.tdiv span := by
      intro x y hy hxy
      by_cases hx : 1 ≤ x.tdiv span
      · exact (le_tdiv_iff hspan hx).mpr (hxy _ hx ((le_tdiv_iff hspan hx).mp le_rfl))
      · omega
    exact le_antisymm (hle ((tdiv_nonneg_iff hspan).mpr hlow') fun k hk => (hsteps k hk).mp)
      (hle hlow fun k hk => (hsteps k hk).mpr)

theorem hash_eq (hlt : imin < imax) :
    (∃ h, hash imin imax x = some h ∧ h.toNat < 2 ^ Mbits ∧
      (h.toNat : Int) = exactHash imin imax y) ↔
      imax - imin < 2 ^ 31 ∧ Scales imin imax x ∧ SameStep imin imax x y := by
  have hspan : 0 < imax - imin := by omega
  constructor
  · rintro ⟨h, hh, hfit, hexact⟩
    obtain ⟨shifted, h1, hh⟩ := Option.bind_eq_some_iff.mp hh
    obtain ⟨scaled, h2, hh⟩ := Option.bind_eq_some_iff.mp hh
    obtain ⟨span, h3, hh⟩ := Option.bind_eq_some_iff.mp hh
    obtain ⟨hint1, rfl⟩ := int_eq_some.mp h1
    obtain ⟨hint2, rfl⟩ := int_eq_some.mp h2
    obtain ⟨hint3, rfl⟩ := int_eq_some.mp h3
    rw [if_neg hspan.ne'] at hh
    obtain ⟨q, h4, rfl⟩ := Option.map_eq_some_iff.mp hh
    obtain ⟨hint4, rfl⟩ := int_eq_some.mp h4
    obtain ⟨hnonneg, hlt', hvalue⟩ := toNat_ofInt hint4 hfit
    obtain ⟨hlow, hhigh⟩ := (tdiv_fits hspan).mp ⟨hnonneg, hlt'⟩
    obtain ⟨hlow', hsteps⟩ := (tdiv_eq_iff hspan hnonneg).mp (hvalue.symm.trans hexact)
    exact ⟨hint3.2, ⟨hlow, hhigh, hint2.2⟩, hlow', hsteps⟩
  · rintro ⟨hspanInt, hscales, hsame⟩
    obtain ⟨hlow, hhigh⟩ := (tdiv_fits hspan).mpr ⟨hscales.low, hscales.high⟩
    obtain ⟨hfit, hvalue⟩ := ofInt_fits hlow hhigh
    have hscaled : IsInt ((x - imin) * (2 ^ Mbits - 1)) :=
      ⟨by have := hscales.low; omega, hscales.int⟩
    have hshifted : IsInt (x - imin) := by
      unfold IsInt Mbits at *
      omega
    have hquot : IsInt (((x - imin) * (2 ^ Mbits - 1)).tdiv (imax - imin)) := by
      unfold IsInt Mbits at *
      omega
    have hexact := (tdiv_eq_iff hspan hlow).mpr ⟨hsame.low, hsame.steps⟩
    refine ⟨_, ?_, hfit, hvalue.trans hexact⟩
    rw [hash, int, if_pos hshifted, Option.bind_some, int, if_pos hscaled, Option.bind_some, int,
      if_pos ⟨by omega, hspanInt⟩, Option.bind_some, if_neg hspan.ne', int, if_pos hquot,
      Option.map_some]

/-- A block whose values are between the limits is as it is clamped. -/
theorem clampedValues_self (hin : ∀ v ∈ values block, imin ≤ v ∧ v ≤ imax) :
    clampedValues imin imax block = values block := by
  refine (List.map_congr_left fun v hv => ?_).trans (List.map_id _)
  obtain ⟨hlow, hhigh⟩ := hin v hv
  rw [min_eq_left hhigh, max_eq_right hlow, id]

theorem Scales.sameStep (hscales : Scales imin imax x) : SameStep imin imax x x :=
  ⟨hscales.low, fun _ _ => Iff.rfl⟩

/-- When the hashes are computed without overflow, fit and are those of the average `avg` and the
range `rng`. -/
theorem hashes_exact_iff (hlt : imin < imax) (avg rng : Int) :
    (∃ h, hashes imin imax block = some h ∧ h.Fits ∧
      (h.hfAvg.toNat : Int) = exactHash imin imax avg ∧
      (h.hfRange.toNat : Int) = exactHash imin imax rng) ↔
    Sums (values block) ∧ imax - imin < 2 ^ 31 ∧
      (Scales imin imax (average (values block)) ∧
        SameStep imin imax (average (values block)) avg) ∧
      Scales imin imax (range (values block)) ∧
        SameStep imin imax (range (values block)) rng := by
  constructor
  · rintro ⟨h, hh, hfit, havg, hrange⟩
    obtain ⟨⟨a, r⟩, h1, hh⟩ := Option.bind_eq_some_iff.mp hh
    obtain ⟨hsums, rfl, rfl⟩ := avgRange_eq.mp h1
    obtain ⟨hfAvg, h2, hh⟩ := Option.bind_eq_some_iff.mp hh
    obtain ⟨hfRange, h3, rfl⟩ := Option.map_eq_some_iff.mp hh
    obtain ⟨hspan, hsteps⟩ := (hash_eq hlt).mp ⟨_, h2, hfit.1, havg⟩
    exact ⟨hsums, hspan, hsteps, ((hash_eq hlt).mp ⟨_, h3, hfit.2, hrange⟩).2⟩
  · rintro ⟨hsums, hspan, havg, hrange⟩
    obtain ⟨hfAvg, h2, hfit, hvalue⟩ := (hash_eq hlt).mpr ⟨hspan, havg⟩
    obtain ⟨hfRange, h3, hfit', hvalue'⟩ := (hash_eq hlt).mpr ⟨hspan, hrange⟩
    refine ⟨⟨hfAvg, hfRange⟩, ?_, ⟨hfit, hfit'⟩, hvalue, hvalue'⟩
    rw [hashes, avgRange_eq.mpr ⟨hsums, rfl, rfl⟩, Option.bind_some]
    dsimp only
    rw [h2, Option.bind_some, h3, Option.map_some]

end

/-- The hashes of a block are computed without overflow, fit and are those of the clamped values
exactly when no sum of its first values, the range or the difference of the limits overflows,
neither the average nor the range is beyond the limits by a step of the hash or too far from `imin`
to be scaled, and the clamping moves neither of them to another step. -/
theorem hashes_clamped_iff {imin imax : Int} (hlt : imin < imax) (block : Block) :
    (∃ h, hashes imin imax block = some h ∧ h.Fits ∧
      (h.hfAvg.toNat : Int) = exactHash imin imax (average (clampedValues imin imax block)) ∧
      (h.hfRange.toNat : Int) = exactHash imin imax (range (clampedValues imin imax block))) ↔
    Sums (values block) ∧ imax - imin < 2 ^ 31 ∧
      (Scales imin imax (average (values block)) ∧
        SameStep imin imax (average (values block)) (average (clampedValues imin imax block))) ∧
      Scales imin imax (range (values block)) ∧
        SameStep imin imax (range (values block)) (range (clampedValues imin imax block)) :=
  hashes_exact_iff hlt _ _

/-- A block whose values are between the limits of a byte. -/
theorem hashes_clamped_iff_spread :
    (∃ h, hashes 0 255 spread = some h ∧ h.Fits ∧
      (h.hfAvg.toNat : Int) = exactHash 0 255 (average (clampedValues 0 255 spread)) ∧
      (h.hfRange.toNat : Int) = exactHash 0 255 (range (clampedValues 0 255 spread))) ↔
    Sums (values spread) ∧ 255 - 0 < (2 : Int) ^ 31 ∧
      (Scales 0 255 (average (values spread)) ∧
        SameStep 0 255 (average (values spread)) (average (clampedValues 0 255 spread))) ∧
      Scales 0 255 (range (values spread)) ∧
        SameStep 0 255 (range (values spread)) (range (clampedValues 0 255 spread)) :=
  hashes_clamped_iff (by decide) spread

/-- When no value is outside the limits, it is left that nothing overflows and that the average and
the range are not beyond the limits by a step. -/
theorem hashes_inside_iff {imin imax : Int} (hlt : imin < imax) {block : Block}
    (hin : ∀ v ∈ values block, imin ≤ v ∧ v ≤ imax) :
    (∃ h, hashes imin imax block = some h ∧ h.Fits ∧
      (h.hfAvg.toNat : Int) = exactHash imin imax (average (clampedValues imin imax block)) ∧
      (h.hfRange.toNat : Int) = exactHash imin imax (range (clampedValues imin imax block))) ↔
    Sums (values block) ∧ imax - imin < 2 ^ 31 ∧ Scales imin imax (average (values block)) ∧
      Scales imin imax (range (values block)) := by
  rw [clampedValues_self hin, hashes_exact_iff hlt, and_iff_left_of_imp Scales.sameStep,
    and_iff_left_of_imp Scales.sameStep]

/-- One value is -10, which the average loses. -/
def below : Block := zeros.set 0 (-10)

/-- With the default limits of `BuildCacheBank` their difference overflows, and with the limits of a
byte the range of a block is not that of its values clamped to them. -/
theorem default_limits_overflow : (¬∀ (imin imax : Int) (block : Block), IsInt imin → IsInt imax →
    imin < imax → ∃ h, hashes imin imax block = some h ∧ h.Fits ∧
      (h.hfAvg.toNat : Int) = exactHash imin imax (average (clampedValues imin imax block)) ∧
      (h.hfRange.toNat : Int) = exactHash imin imax (range (clampedValues imin imax block))) ∧
    ¬∀ block : Block, ∃ h, hashes 0 255 block = some h ∧ h.Fits ∧
      (h.hfAvg.toNat : Int) = exactHash 0 255 (average (clampedValues 0 255 block)) ∧
      (h.hfRange.toNat : Int) = exactHash 0 255 (range (clampedValues 0 255 block)) := by
  constructor
  · intro hall
    obtain ⟨h, hh, -⟩ := hall (-2 ^ 31 + 10) (2 ^ 31 - 1 - 10) zeros (by decide) (by decide)
      (by decide)
    have hnone : hashes (-2 ^ 31 + 10) (2 ^ 31 - 1 - 10) zeros = none := by decide
    exact absurd (hnone.symm.trans hh) (Option.some_ne_none _).symm
  · intro hall
    obtain ⟨h, hh, -, -, hrange⟩ := hall below
    have hsome : hashes 0 255 below = some ⟨0, 160⟩ := by decide
    rw [← Option.some.inj (hsome.symm.trans hh)] at hrange
    revert hrange
    decide

end Doppelganger.Dpg.Maps
