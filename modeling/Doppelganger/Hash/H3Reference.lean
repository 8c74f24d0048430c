import Doppelganger.Hash.H3
import Doppelganger.Lib.BitSums

/-! `hash` and the loop of its comment.  The loop rotates word `x` of `w` words by `w - x` places.
In `hash` the word `8*b + k` is rotated by `w - 8*b + k` places, and not by `w - 8*b - k`: it is
where the loop has another word. -/

namespace Doppelganger.Hash

open Lib Finset

theorem rotl_eq {v : BitVec 64} {k : Nat} (hk : k < 64) : rotl v k = v.rotateLeft k :=
  (BitVec.rotateLeft_eq_rotateLeftAux_of_lt hk).symm

theorem bit_rotl {v : BitVec 64} {k : Nat} (hk : k < 64) (i : ZMod 64) :
    bit (rotl v k) i = bit v (i - k) := by
  rw [rotl_eq hk, bit_rotateLeft v hk]

/-! ### The reference loop -/

theorem reference_succ (word : Nat → BitVec 64) (n : Nat) (val : BitVec 64) :
    reference word (n + 1) val = rotl (reference word n val ^^^ (val &&& word n)) 1 := by
  rw [reference, List.range_succ, List.foldl_append]
  rfl

/-- Word `x` is rotated by `n - x` places. -/
theorem bit_reference (word : Nat → BitVec 64) (n : Nat) (val : BitVec 64) (i : ZMod 64) :
    bit (reference word n val) i = ∑ x ∈ range n, bit (val &&& word x) (i - (n - x)) := by
  induction n generalizing i with
  | zero => rw [range_zero, sum_empty]; exact bit_zero i
  | succ n ih =>
    rw [reference_succ, bit_rotl Nat.one_lt_ofNat, bit_xor, ih, sum_range_succ]
    congr 1
    · apply sum_congr rfl
      intro x _
      congr 1
      push_cast
      ring
    · congr 1
      push_cast
      ring

/-! ### The loop of `hash` -/

/-- A round, with what it reads. -/
def block (r : Nat → BitVec 64) (res : BitVec 64) : BitVec 64 :=
  rotl (res ^^^ (r 0 ^^^ rotl (r 1) 1 ^^^ rotl (r 2) 2 ^^^ rotl (r 3) 3) ^^^
    (rotl (r 4) 4 ^^^ rotl (r 5) 5 ^^^ rotl (r 6) 6 ^^^ rotl (r 7) 7)) 8

theorem bit_block (r : Nat → BitVec 64) (res : BitVec 64) (i : ZMod 64) :
    bit (block r res) i = bit res (i - 8) + ∑ k ∈ range 8, bit (r k) (i - 8 - k) := by
  unfold block
  rw [bit_rotl (by decide)]
  simp only [bit_xor, bit_rotl (show 1 < 64 by decide), bit_rotl (show 2 < 64 by decide),
    bit_rotl (show 3 < 64 by decide), bit_rotl (show 4 < 64 by decide),
    bit_rotl (show 5 < 64 by decide), bit_rotl (show 6 < 64 by decide),
    bit_rotl (show 7 < 64 by decide), sum_range_succ, range_zero, sum_empty]
  push_cast
  rw [sub_zero]
  ring

/-! ### The words of a function -/

namespace H3HashFamily

variable {f : H3HashFamily} {id : UInt32} {b k : Nat}

/-- The words that belong to a function. -/
def ownWord (f : H3HashFamily) (id : UInt32) (x : Nat) : BitVec 64 :=
  f.hMatrix.getD (id.toNat * f.words + x) 0

/-- What `hash` reads from the matrix. -/
def reads (f : H3HashFamily) (id : UInt32) : List Nat :=
  (f.bases id).flatMap fun base => (List.range 8).map fun k => (base + UInt32.ofNat k).toNat

theorem words_cases (f : H3HashFamily) :
    f.words = 64 ∨ f.words = 32 ∨ f.words = 16 ∨ f.words = 8 := by
  have hle := f.resShift_le
  unfold words wordsOf
  interval_cases f.resShift <;> decide

theorem end_lt (hid : id < f.numFuncs) :
    id.toNat * f.words + f.words ≤ f.hMatrix.length := by
  have hle := Nat.mul_le_mul_right f.words (Nat.succ_le_of_lt (UInt32.lt_iff_toNat_lt.mp hid))
  rw [Nat.succ_mul] at hle
  rw [f.length_eq, Nat.mul_comm (wordsOf _)]
  exact hle

theorem toNat_base (hid : id < f.numFuncs) (hb : b < f.words / 8) (hk : k < 8) :
    ((id <<< UInt32.ofNat (6 - f.resShift)) + UInt32.ofNat (8 * b) + UInt32.ofNat k).toNat =
      id.toNat * f.words + (8 * b + k) := by
  have hend := end_lt hid
  have hlt := f.length_lt
  have hshift : (id <<< UInt32.ofNat (6 - f.resShift)).toNat = id.toNat * f.words % 2 ^ 32 := by
    have hle := f.resShift_le
    unfold words wordsOf
    rw [UInt32.toNat_shiftLeft, UInt32.toNat_ofNat', Nat.shiftLeft_eq]
    interval_cases f.resShift <;> rfl
  rw [UInt32.toNat_add, UInt32.toNat_add, hshift, UInt32.toNat_ofNat', UInt32.toNat_ofNat']
  omega

theorem word_eq (hid : id < f.numFuncs) (hb : b < f.words / 8) (hk : k < 8) :
    f.word ((id <<< UInt32.ofNat (6 - f.resShift)) + UInt32.ofNat (8 * b) + UInt32.ofNat k) =
      some (f.ownWord id (8 * b + k)) := by
  have hend := end_lt hid
  rw [word, toNat_base hid hb hk, ownWord, List.getD_eq_getElem?_getD]
  rw [List.getElem?_eq_getElem (by omega)]
  rfl

/-- A round reads eight words of the function. -/
theorem round_eq (hid : id < f.numFuncs) (hb : b < f.words / 8) (val res : BitVec 64) :
    f.round val res ((id <<< UInt32.ofNat (6 - f.resShift)) + UInt32.ofNat (8 * b)) =
      some (block (fun k => val &&& f.ownWord id (8 * b + k)) res) := by
  have h0 := word_eq hid hb (k := 0) (by decide)
  have h1 := word_eq hid hb (k := 1) (by decide)
  have h2 := word_eq hid hb (k := 2) (by decide)
  have h3 := word_eq hid hb (k := 3) (by decide)
  have h4 := word_eq hid hb (k := 4) (by decide)
  have h5 := word_eq hid hb (k := 5) (by decide)
  have h6 := word_eq hid hb (k := 6) (by decide)
  have h7 := word_eq hid hb (k := 7) (by decide)
  change f.word (_ + 0) = _ at h0
  rw [UInt32.add_zero] at h0
  change f.word (_ + 1) = _ at h1
  change f.word (_ + 2) = _ at h2
  change f.word (_ + 3) = _ at h3
  change f.word (_ + 4) = _ at h4
  change f.word (_ + 5) = _ at h5
  change f.word (_ + 6) = _ at h6
  change f.word (_ + 7) = _ at h7
  simp only [round, h0, h1, h2, h3, h4, h5, h6, h7]
  rfl

/-- The word `8*b + k` is rotated by `n - 8*b + k` places. -/
theorem rounds_eq (hid : id < f.numFuncs) (val : BitVec 64) {n : Nat} (hn : n ≤ f.words / 8) :
    ∃ res, ((List.range n).map fun b => (id <<< UInt32.ofNat (6 - f.resShift)) +
        UInt32.ofNat (8 * b)).foldlM (f.round val) 0 = some res ∧
      ∀ i, bit res i = ∑ x ∈ range (8 * n),
        bit (val &&& f.ownWord id x) (i - (8 * n - x + 2 * (x % 8 : Nat))) := by
  induction n with
  | zero => exact ⟨0, rfl, fun i => by rw [Nat.mul_zero, range_zero, sum_empty]; exact bit_zero i⟩
  | succ n ih =>
    obtain ⟨res, hres, hbit⟩ := ih (by omega)
    refine ⟨block (fun k => val &&& f.ownWord id (8 * n + k)) res, ?_, fun i => ?_⟩
    · rw [List.range_succ, List.map_append, List.foldlM_append, hres]
      show (f.round val res _ >>= pure) = _
      rw [round_eq hid (by omega)]
      rfl
    · rw [bit_block, hbit, Nat.mul_succ, sum_range_add]
      congr 1
      · apply sum_congr rfl
        intro x _
        congr 1
        push_cast
        ring
      · apply sum_congr rfl
        intro k hk
        have hmod : (8 * n + k) % 8 = k := by
          rw [Nat.mul_add_mod, Nat.mod_eq_of_lt (mem_range.mp hk)]
        rw [hmod]
        congr 1
        push_cast
        ring

/-- `hash` does not fail, and reads the words of the function only. -/
theorem reads_own (hid : id < f.numFuncs) {i : Nat} (hi : i ∈ f.reads id) :
    id.toNat * f.words ≤ i ∧ i < id.toNat * f.words + f.words := by
  simp only [reads, bases, List.mem_flatMap, List.mem_map, List.mem_range] at hi
  obtain ⟨_, ⟨b, hb, rfl⟩, k, hk, rfl⟩ := hi
  rw [toNat_base hid hb hk]
  omega

end H3HashFamily

/-! ### Folding -/

theorem wordsOf_dvd {s : Nat} (hs : s ≤ 3) : wordsOf s ∣ 64 := by
  interval_cases s <;> decide

theorem wordsOf_mul {s : Nat} (hs : s ≤ 3) : 64 = 2 ^ s * wordsOf s := by
  interval_cases s <;> rfl

/-- The fold adds up the bits at the places that are the same modulo the width. -/
theorem bit_fold {s : Nat} (hs : s ≤ 3) (v : BitVec 64) {j : Nat} (hj : j < wordsOf s) :
    (if (fold s v).getLsbD j then (1 : ZMod 2) else 0) =
      classSum (wordsOf_dvd hs) (bit v) (j : ZMod (wordsOf s)) := by
  have hpos : NeZero (wordsOf s) := ⟨by omega⟩
  have hmul := wordsOf_mul hs
  have hle : wordsOf s ≤ 64 := Nat.le_of_dvd (by decide) (wordsOf_dvd hs)
  rw [classSum_eq_sum_range (2 ^ s) hmul, ZMod.val_natCast, Nat.mod_eq_of_lt hj,
    ← bit_natCast _ (Nat.lt_of_lt_of_le hj hle)]
  have hfold : bit (fold s v) (j : ZMod 64) = ∑ t ∈ range (2 ^ s),
      bit v ((j + t * wordsOf s : ℕ) : ZMod 64) := by
    rcases Nat.eq_zero_or_pos s with rfl | hs0
    · rw [Nat.pow_zero, sum_range_one, Nat.zero_mul, Nat.add_zero, fold]
    interval_cases s
    all_goals
      simp only [wordsOf, Nat.reduceShiftRight] at hj ⊢
      simp only [fold, sum_range_succ, range_zero, sum_empty, Nat.reducePow, Nat.reduceMul,
        Nat.zero_mul, Nat.one_mul, Nat.add_zero, zero_add]
      simp (disch := omega) only [bit_xor, bit_ushiftRight, Nat.add_assoc, Nat.reduceAdd]
      ring
  exact hfold

theorem val_sub_natCast {s : Nat} (hs : s ≤ 3) {j : Nat} (hj : j < wordsOf s) (i : Nat) :
    (ZMod.castHom (wordsOf_dvd hs) (ZMod (wordsOf s)) (i : ZMod 64) - j).val =
      (i + (wordsOf s - j)) % wordsOf s := by
  have hplace : ZMod.castHom (wordsOf_dvd hs) (ZMod (wordsOf s)) (i : ZMod 64) - j =
      ((i + (wordsOf s - j) : ℕ) : ZMod (wordsOf s)) := by
    rw [map_natCast, Nat.cast_add, Nat.cast_sub hj.le, ZMod.natCast_self]
    ring
  rw [hplace, ZMod.val_natCast]

/-- The lowest bits of a word that is made of words which are rotated by `turn`. -/
theorem low_bit {s : Nat} (hs : s ≤ 3) {c : Nat → BitVec 64} {res : BitVec 64}
    {turn : Nat → ZMod 64} {place : Nat → ZMod (wordsOf s)} {index : Nat → Nat}
    (hbit : ∀ i, bit res i = ∑ x ∈ range (wordsOf s), bit (c x) (i - turn x))
    (hturn : ∀ x, ZMod.castHom (wordsOf_dvd hs) (ZMod (wordsOf s)) (turn x) = -place x)
    (hlt : ∀ y < wordsOf s, index y < wordsOf s)
    (hplace : ∀ x < wordsOf s, ∀ y, y = place x ↔ x = index y.val) {j : Nat}
    (hj : j < wordsOf s) : (if (fold s res).getLsbD j then (1 : ZMod 2) else 0) =
      ∑ i ∈ range 64, bit (c (index ((i + (wordsOf s - j)) % wordsOf s))) (i : ZMod 64) := by
  have hpos : NeZero (wordsOf s) := ⟨by omega⟩
  calc (if (fold s res).getLsbD j then (1 : ZMod 2) else 0)
      = ∑ x ∈ range (wordsOf s), classSum (wordsOf_dvd hs) (bit (c x)) (j + place x) := by
        rw [bit_fold hs res hj, funext hbit, classSum_sum]
        apply sum_congr rfl
        intro x _
        rw [classSum_sub, hturn, sub_neg_eq_add]
    _ = ∑ i, bit (c (index (ZMod.castHom (wordsOf_dvd hs) (ZMod (wordsOf s)) i - j).val)) i :=
        sum_classSum_shift (fun y => hlt _ y.val_lt) hplace (fun x => bit (c x)) j
    _ = _ := by
        rw [sum_places]
        apply sum_congr rfl
        intro i _
        rw [val_sub_natCast hs hj]

theorem low_reference {s : Nat} (hs : s ≤ 3) (word : Nat → BitVec 64) (val : BitVec 64) {j : Nat}
    (hj : j < wordsOf s) :
    (if (fold s (reference word (wordsOf s) val)).getLsbD j then (1 : ZMod 2) else 0) =
      ∑ i ∈ range 64, bit (val &&& word ((i + (wordsOf s - j)) % wordsOf s)) (i : ZMod 64) := by
  have hpos : NeZero (wordsOf s) := ⟨by omega⟩
  have hplace : ∀ x < wordsOf s, ∀ y : ZMod (wordsOf s), y = x ↔ x = y.val := by
    intro x hx y
    constructor
    · rintro rfl
      rw [ZMod.val_natCast, Nat.mod_eq_of_lt hx]
    · rintro rfl
      rw [ZMod.natCast_zmod_val]
  refine low_bit hs (c := fun x => val &&& word x) (bit_reference word _ val) (fun x => ?_)
    (fun y hy => hy) hplace hj
  rw [map_sub, map_natCast, map_natCast, ZMod.natCast_self, zero_sub]

/-! ### What `hash` has in place of the words of the loop -/

/-- The word that `hash` rotates as the loop rotates word `y` of `w` words. -/
def swapped (w y : Nat) : Nat := (y + 2 * ((8 - y % 8) % 8)) % w

theorem swapped_iff {s : Nat} (hs : s ≤ 3) {x : Nat} (hx : x < wordsOf s) (y : ZMod (wordsOf s)) :
    y = x - 2 * (x % 8 : Nat) ↔ x = swapped (wordsOf s) y.val := by
  have hpos : NeZero (wordsOf s) := ⟨by omega⟩
  have hy := y.val_lt
  have hcast : y = x - 2 * (x % 8 : Nat) ↔
      ((y.val + 2 * (x % 8) : ℕ) : ZMod (wordsOf s)) = (x : ZMod (wordsOf s)) := by
    push_cast
    rw [ZMod.natCast_zmod_val, eq_sub_iff_add_eq]
  rw [hcast, ZMod.natCast_eq_natCast_iff', Nat.mod_eq_of_lt hx, swapped]
  generalize y.val = v at hy
  clear hcast hpos y
  interval_cases s
  all_goals
    simp only [wordsOf, Nat.reduceShiftRight] at hx hy ⊢
    omega

theorem swapped_lt {w : Nat} (hw : 0 < w) (y : Nat) : swapped w y < w := Nat.mod_lt _ hw

theorem low_rounds {s : Nat} (hs : s ≤ 3) {word : Nat → BitVec 64} {val res : BitVec 64}
    (hbit : ∀ i, bit res i = ∑ x ∈ range (wordsOf s),
      bit (val &&& word x) (i - (wordsOf s - x + 2 * (x % 8 : Nat)))) {j : Nat}
    (hj : j < wordsOf s) : (if (fold s res).getLsbD j then (1 : ZMod 2) else 0) =
      ∑ i ∈ range 64, bit (val &&& word (swapped (wordsOf s) ((i + (wordsOf s - j)) % wordsOf s)))
        (i : ZMod 64) := by
  refine low_bit hs (c := fun x => val &&& word x) hbit (fun x => ?_)
    (fun y _ => swapped_lt (by omega) y) (fun x hx y => swapped_iff hs hx y) hj
  rw [map_add, map_sub, map_mul, map_natCast, map_natCast, map_natCast, map_ofNat,
    ZMod.natCast_self]
  ring

namespace H3HashFamily

/-- The bits of `val` at which the word that counts for bit `j` of the output is not that of the
loop. -/
def mismatches (f : H3HashFamily) (id : UInt32) (val : BitVec 64) (j : Nat) : Finset Nat :=
  (range 64).filter fun i => val.getLsbD i = true ∧
    (f.ownWord id ((i + (f.words - j)) % f.words)).getLsbD i ≠
      (f.ownWord id (swapped f.words ((i + (f.words - j)) % f.words))).getLsbD i

/-- `hash` reads the words of the function only, and gives the bits of the loop over them. -/
structure Meets (f : H3HashFamily) (id : UInt32) (val : BitVec 64) : Prop where
  own : ∀ i ∈ f.reads id, id.toNat * f.words ≤ i ∧ i < id.toNat * f.words + f.words
  refines : ∃ res, f.hash id val = some res ∧ res.setWidth f.words =
    (fold f.resShift (reference (f.ownWord id) f.words val)).setWidth f.words

variable {f : H3HashFamily} {id : UInt32}

theorem words_pos (f : H3HashFamily) : 0 < f.words := by
  rcases f.words_cases with h | h | h | h <;> omega

theorem indicator_eq_iff (a b : Bool) :
    (if a then (1 : ZMod 2) else 0) = (if b then 1 else 0) ↔ a = b := by
  cases a <;> cases b <;> decide

/-- Two sums that differ by the places at which the summands differ. -/
theorem sum_bit_eq_iff (val : BitVec 64) (u v : Nat → BitVec 64) :
    ∑ i ∈ range 64, bit (val &&& u i) (i : ZMod 64) =
      ∑ i ∈ range 64, bit (val &&& v i) (i : ZMod 64) ↔
    Even ((range 64).filter fun i =>
      val.getLsbD i = true ∧ (u i).getLsbD i ≠ (v i).getLsbD i).card := by
  rw [← sum_ite_eq_zero_iff, ← CharTwo.add_eq_zero, ← sum_add_distrib]
  apply Eq.congr _ rfl
  apply sum_congr rfl
  intro i hi
  rw [mem_range] at hi
  rw [bit_and, bit_and, bit_natCast _ hi, bit_natCast _ hi, bit_natCast _ hi]
  cases val.getLsbD i <;> cases (u i).getLsbD i <;> cases (v i).getLsbD i <;> decide

theorem hash_bits (hid : id < f.numFuncs) (val : BitVec 64) :
    ∃ res, f.hash id val = some (fold f.resShift res) ∧ ∀ j < f.words,
      ((fold f.resShift res).getLsbD j =
          (fold f.resShift (reference (f.ownWord id) f.words val)).getLsbD j ↔
        Even (f.mismatches id val j).card) := by
  obtain ⟨res, hres, hbit⟩ := rounds_eq hid val (Nat.le_refl _)
  have hwords : 8 * (f.words / 8) = wordsOf f.resShift := by
    rcases f.words_cases with h | h | h | h <;> rw [h] <;> exact h.symm
  have hcast : (8 : ZMod 64) * (f.words / 8 : ℕ) = (wordsOf f.resShift : ZMod 64) := by
    rw [← hwords]
    push_cast
    rfl
  rw [hwords] at hbit
  simp only [hcast] at hbit
  refine ⟨res, ?_, fun j hj => ?_⟩
  · rw [hash, if_pos hid, bases, hres]
    rfl
  · rw [← indicator_eq_iff, low_rounds f.resShift_le hbit hj, eq_comm, mismatches,
      ← sum_bit_eq_iff]
    exact Eq.congr (low_reference f.resShift_le (f.ownWord id) val hj) rfl

theorem meets_iff (hid : id < f.numFuncs) (val : BitVec 64) :
    f.Meets id val ↔ ∀ j < f.words, Even (f.mismatches id val j).card := by
  obtain ⟨res, hhash, hbits⟩ := hash_bits hid val
  constructor
  · intro hmeets j hj
    obtain ⟨res', hres', heq⟩ := hmeets.refines
    obtain rfl := Option.some.inj (hhash.symm.trans hres')
    have hbit := congrArg (fun v => v.getLsbD j) heq
    rw [BitVec.getLsbD_setWidth, BitVec.getLsbD_setWidth, decide_eq_true hj, Bool.true_and,
      Bool.true_and] at hbit
    exact (hbits j hj).mp hbit
  · intro heven
    refine ⟨fun i hi => reads_own hid hi, _, hhash, ?_⟩
    apply BitVec.eq_of_getLsbD_eq
    intro j hj
    rw [BitVec.getLsbD_setWidth, BitVec.getLsbD_setWidth, (hbits j hj).mpr (heven j hj)]

/-- The place in a word and the bit of the output that make one word count. -/
theorem exists_output (f : H3HashFamily) {y : Nat} (hy : y < f.words) (i : Nat) :
    ∃ j < f.words, (i + (f.words - j)) % f.words = y := by
  refine ⟨(i + (f.words - y)) % f.words, Nat.mod_lt _ f.words_pos, ?_⟩
  rcases f.words_cases with h | h | h | h
  all_goals
    rw [h] at hy ⊢
    omega

/-- A value of one bit shows whether two words differ there. -/
theorem mismatches_twoPow (f : H3HashFamily) (id : UInt32) {i : Nat} (hi : i < 64) {j : Nat}
    (heven : Even (f.mismatches id (BitVec.twoPow 64 i) j).card) :
    (f.ownWord id ((i + (f.words - j)) % f.words)).getLsbD i =
      (f.ownWord id (swapped f.words ((i + (f.words - j)) % f.words))).getLsbD i := by
  by_contra hne
  have hone : f.mismatches id (BitVec.twoPow 64 i) j = {i} := by
    ext i'
    rw [mismatches, mem_filter, mem_range, mem_singleton, BitVec.getLsbD_twoPow]
    constructor
    · rintro ⟨-, hbit, -⟩
      rw [decide_eq_true hi, Bool.true_and, decide_eq_true_eq] at hbit
      exact hbit.symm
    · rintro rfl
      exact ⟨hi, by simp [hi], hne⟩
  rw [hone, card_singleton] at heven
  exact absurd heven (by decide)

/-- For one value `hash` is as the loop if and only if for each bit of the output the bits of the
value at which the words that count for it differ are even in number; for all values, if and only if
these words are the same. -/
theorem hash_refines_iff (f : H3HashFamily) (hid : id < f.numFuncs) :
    (∀ val, f.Meets id val ↔ ∀ j < f.words, Even (f.mismatches id val j).card) ∧
    ((∀ val, f.Meets id val) ↔
      ∀ y < f.words, f.ownWord id y = f.ownWord id (swapped f.words y)) := by
  refine ⟨fun val => meets_iff hid val, ?_⟩
  constructor
  · intro hmeets y hy
    apply BitVec.eq_of_getLsbD_eq
    intro i hi
    obtain ⟨j, hj, rfl⟩ := f.exists_output hy i
    exact f.mismatches_twoPow id hi ((meets_iff hid _).mp (hmeets _) j hj)
  · intro hwords val
    apply (meets_iff hid val).mpr
    intro j hj
    have hnone : f.mismatches id val j = ∅ := by
      apply filter_eq_empty_iff.mpr
      rintro i - ⟨-, hne⟩
      exact hne (by rw [← hwords _ (Nat.mod_lt _ f.words_pos)])
    rw [hnone]
    exact Even.zero

/-- One function of 64 bits, whose word `1` is `1` and whose other words are `0`. -/
def sample : H3HashFamily where
  numFuncs := 1
  resShift := 0
  hMatrix := 0 :: 1 :: List.replicate 62 0
  resShift_le := Nat.zero_le 3
  length_eq := rfl
  length_lt := Nat.lt_of_sub_pos (Nat.succ_pos _)

theorem hash_refines_sample : ¬ ∀ val, sample.Meets 0 val := by
  rw [(hash_refines_iff sample (show (0 : UInt32) < 1 by decide)).2]
  intro hwords
  exact absurd (hwords 1 (by decide)) (by decide)

/-- The loop rotates the word to the highest bit, and `hash` the other way. -/
theorem hash_wrong_way : sample.hash 0 1 = some 2 ∧
    reference (sample.ownWord 0) 64 1 = 0x8000000000000000 ∧ ¬ sample.Meets 0 1 := by
  have hhash : sample.hash 0 1 = some 2 := by decide +kernel
  have hloop : reference (sample.ownWord 0) 64 1 = 0x8000000000000000 := by decide +kernel
  refine ⟨hhash, hloop, fun hmeets => ?_⟩
  obtain ⟨res, hres, heq⟩ := hmeets.refines
  obtain rfl := Option.some.inj (hhash.symm.trans hres)
  change BitVec.setWidth 64 2 =
    BitVec.setWidth 64 (fold 0 (reference (sample.ownWord 0) 64 1)) at heq
  rw [hloop] at heq
  exact absurd heq (by decide)

end H3HashFamily

end Doppelganger.Hash
