import Mathlib.Data.ZMod.Basic
import Mathlib.Algebra.BigOperators.Intervals
import Mathlib.Algebra.BigOperators.Ring.Finset
import Mathlib.Algebra.CharP.Two
import Mathlib.Algebra.Field.ZMod
import Mathlib.Tactic.Ring

/-! Exclusive or as addition.  The bits of an `n`-bit word are numbers modulo 2 at places modulo
`n`, a rotation shifts the places, and folding a word onto its lowest `w` bits adds up the bits at
the places that are the same modulo `w`. -/

namespace Doppelganger.Lib

open Finset

variable {n w : ℕ}

/-- The bit of `v` at the place `i`. -/
def bit (v : BitVec n) (i : ZMod n) : ZMod 2 := if v.getLsbD i.val then 1 else 0

@[simp] theorem bit_zero (i : ZMod n) : bit 0#n i = 0 := by simp [bit]

@[simp] theorem bit_xor (u v : BitVec n) (i : ZMod n) : bit (u ^^^ v) i = bit u i + bit v i := by
  unfold bit
  rw [BitVec.getLsbD_xor]
  cases u.getLsbD i.val <;> cases v.getLsbD i.val <;> rfl

@[simp] theorem bit_and (u v : BitVec n) (i : ZMod n) : bit (u &&& v) i = bit u i * bit v i := by
  unfold bit
  rw [BitVec.getLsbD_and]
  cases u.getLsbD i.val <;> cases v.getLsbD i.val <;> rfl

theorem bit_natCast (v : BitVec n) {i : ℕ} (hi : i < n) :
    bit v i = if v.getLsbD i then 1 else 0 := by
  rw [bit, ZMod.val_natCast, Nat.mod_eq_of_lt hi]

theorem bit_ushiftRight (v : BitVec n) {i k : ℕ} (hi : i + k < n) :
    bit (v >>> k) (i : ZMod n) = bit v ((i + k : ℕ) : ZMod n) := by
  rw [bit_natCast _ (by omega), bit_natCast v hi, BitVec.getLsbD_ushiftRight, Nat.add_comm]

theorem bit_rotateLeft [NeZero n] (v : BitVec n) {k : ℕ} (hk : k < n) (i : ZMod n) :
    bit (v.rotateLeft k) i = bit v (i - k) := by
  have hi := i.val_lt
  rw [bit, BitVec.getLsbD_rotateLeft, Nat.mod_eq_of_lt hk]
  rcases Nat.lt_or_ge i.val k with hlt | hge
  · have hplace : i - k = ((n - k + i.val : ℕ) : ZMod n) := by
      rw [Nat.cast_add, Nat.cast_sub hk.le, ZMod.natCast_self, ZMod.natCast_zmod_val]
      ring
    rw [decide_eq_true hlt, cond_true, hplace, bit_natCast v (by omega)]
  · have hplace : i - k = ((i.val - k : ℕ) : ZMod n) := by
      rw [Nat.cast_sub hge, ZMod.natCast_zmod_val]
    rw [decide_eq_false (by omega), cond_false, decide_eq_true hi, Bool.true_and, hplace,
      bit_natCast v (by omega)]

theorem sum_places [NeZero n] (f : ZMod n → ZMod 2) : ∑ i, f i = ∑ i ∈ range n, f (i : ZMod n) := by
  symm
  refine sum_nbij' (fun i => (i : ZMod n)) ZMod.val (fun _ _ => mem_univ _)
    (fun i _ => mem_range.mpr i.val_lt) (fun i hi => ?_) (fun i _ => i.natCast_zmod_val)
    fun _ _ => rfl
  rw [ZMod.val_natCast, Nat.mod_eq_of_lt (mem_range.mp hi)]

/-! ### Folding -/

/-- The sum of `f` over the places that are `r` modulo `w`. -/
def classSum [NeZero n] (h : w ∣ n) (f : ZMod n → ZMod 2) (r : ZMod w) : ZMod 2 :=
  ∑ i with ZMod.castHom h (ZMod w) i = r, f i

variable [NeZero n] {h : w ∣ n} {f : ZMod n → ZMod 2} {r : ZMod w}

theorem classSum_sub (f : ZMod n → ZMod 2) (r : ZMod w) (e : ZMod n) :
    classSum h (fun i => f (i - e)) r = classSum h f (r - ZMod.castHom h (ZMod w) e) := by
  unfold classSum
  refine sum_nbij' (· - e) (· + e) (fun i hi => ?_) (fun i hi => ?_)
    (fun i _ => sub_add_cancel i e) (fun i _ => add_sub_cancel_right i e) fun _ _ => rfl
  · rw [mem_filter] at hi ⊢
    exact ⟨mem_univ _, by rw [map_sub, hi.2]⟩
  · rw [mem_filter] at hi ⊢
    exact ⟨mem_univ _, by rw [map_add, hi.2, sub_add_cancel]⟩

theorem classSum_sum {ι : Type*} (s : Finset ι) (f : ι → ZMod n → ZMod 2) (r : ZMod w) :
    classSum h (fun i => ∑ x ∈ s, f x i) r = ∑ x ∈ s, classSum h (f x) r := sum_comm

/-- The places that are `r` modulo `w`, one after the other. -/
theorem classSum_eq_sum_range [NeZero w] (m : ℕ) (hm : n = m * w) (f : ZMod n → ZMod 2)
    (r : ZMod w) : classSum h f r = ∑ t ∈ range m, f ((r.val + t * w : ℕ) : ZMod n) := by
  have hw : 0 < w := NeZero.pos w
  have hr := r.val_lt
  have hlt : ∀ t < m, r.val + t * w < n := by
    intro t ht
    have hle := Nat.mul_le_mul_right w (Nat.succ_le_of_lt ht)
    rw [Nat.succ_mul] at hle
    omega
  unfold classSum
  symm
  refine sum_nbij' (fun t => ((r.val + t * w : ℕ) : ZMod n)) (fun i => i.val / w)
    (fun t _ => ?_) (fun i _ => ?_) (fun t ht => ?_) (fun i hi => ?_) fun _ _ => rfl
  · rw [mem_filter]
    refine ⟨mem_univ _, ?_⟩
    rw [map_natCast, Nat.cast_add, Nat.cast_mul, ZMod.natCast_self, mul_zero, add_zero,
      ZMod.natCast_zmod_val]
  · rw [mem_range, Nat.div_lt_iff_lt_mul hw, ← hm]
    exact i.val_lt
  · rw [ZMod.val_natCast, Nat.mod_eq_of_lt (hlt t (mem_range.mp ht)),
      Nat.add_mul_div_right _ _ hw, Nat.div_eq_of_lt hr, Nat.zero_add]
  · have hclass := (mem_filter.mp hi).2
    have hval : r.val = i.val % w := by
      rw [← hclass, ZMod.castHom_apply, ZMod.cast_eq_val, ZMod.val_natCast]
    rw [hval, Nat.mul_comm, Nat.mod_add_div, ZMod.natCast_zmod_val]

/-- The functions of a family, each shifted to another place: what is at the place `i` of the one
that is shifted there. -/
theorem sum_classSum_shift {place : ℕ → ZMod w} {index : ZMod w → ℕ} (hlt : ∀ y, index y < w)
    (hplace : ∀ x < w, ∀ y, y = place x ↔ x = index y) (c : ℕ → ZMod n → ZMod 2) (j : ZMod w) :
    ∑ x ∈ range w, classSum h (c x) (j + place x) =
      ∑ i, c (index (ZMod.castHom h (ZMod w) i - j)) i := by
  have hiff : ∀ i, ∀ x ∈ range w, (if ZMod.castHom h (ZMod w) i = j + place x then c x i else 0) =
      if x = index (ZMod.castHom h (ZMod w) i - j) then c x i else 0 := by
    intro i x hx
    rw [mem_range] at hx
    apply if_congr _ rfl rfl
    rw [← hplace x hx, sub_eq_iff_eq_add, add_comm]
  calc ∑ x ∈ range w, classSum h (c x) (j + place x)
      = ∑ x ∈ range w, ∑ i, if ZMod.castHom h (ZMod w) i = j + place x then c x i else 0 :=
        sum_congr rfl fun x _ => sum_filter _ _
    _ = ∑ i, ∑ x ∈ range w, if ZMod.castHom h (ZMod w) i = j + place x then c x i else 0 :=
        sum_comm
    _ = ∑ i, c (index (ZMod.castHom h (ZMod w) i - j)) i := by
      apply sum_congr rfl
      intro i _
      rw [sum_congr rfl (hiff i), sum_ite_eq', if_pos (mem_range.mpr (hlt _))]

/-- A number modulo 2 that counts is zero when the count is even. -/
theorem sum_ite_eq_zero_iff {ι : Type*} (s : Finset ι) (p : ι → Prop) [DecidablePred p] :
    ∑ i ∈ s, (if p i then (1 : ZMod 2) else 0) = 0 ↔ Even (s.filter p).card := by
  rw [sum_boole, ZMod.natCast_eq_zero_iff_even]

end Doppelganger.Lib
