import Mathlib.Data.List.Range
import Mathlib.Data.Nat.Basic
import Mathlib.Algebra.Group.Nat.Defs
import Mathlib.Tactic.IntervalCases

/-! The `H3HashFamily` of `hash.cpp`, with its constructor.  Reading or writing behind the matrix is
`none`, and so is a failed assertion or a panic. -/

namespace Doppelganger.Hash

/-! ### The constructor -/

/-- `resShift` of `outputBits`, where more than 64 bits are a panic. -/
def resShiftOf (outputBits : UInt32) : Option Nat :=
  if outputBits ≤ 8 then some 3
  else if outputBits ≤ 16 then some 2
  else if outputBits ≤ 32 then some 1
  else if outputBits ≤ 64 then some 0
  else none

/-- The words of a function. -/
def wordsOf (resShift : Nat) : Nat := 64 >>> resShift

/-- The loop over `kk`.  `randInt n` is what call number `n` of `rnd.randInt()` gives. -/
def randomWord (randInt : Nat → UInt32) (word : Nat) : BitVec 64 :=
  (List.range 64).foldl (fun val kk =>
    let val := val <<< 1
    if randInt (64 * word + kk) % 2 = 0 then val + 1 else val) 0

/-- `hMatrix[ii*words + jj] = val`, for each `(ii, jj)` of the loops. -/
def store (randInt : Nat → UInt32) (words : UInt32) (hMatrix : List (BitVec 64)) (ij : Nat × Nat) :
    Option (List (BitVec 64)) :=
  let index := UInt32.ofNat ij.1 * words + UInt32.ofNat ij.2
  if index.toNat < hMatrix.length then
    some (hMatrix.set index.toNat (randomWord randInt (ij.1 * words.toNat + ij.2)))
  else none

/-- The loops, over what `gm_calloc<uint64_t>(words*numFuncs)` gives. -/
def fill (randInt : Nat → UInt32) (words numFuncs : UInt32) : Option (List (BitVec 64)) :=
  ((List.range numFuncs.toNat).flatMap fun ii =>
      (List.range words.toNat).map fun jj => (ii, jj)).foldlM (store randInt words)
    (List.replicate (words * numFuncs).toNat 0)

theorem length_stored {randInt : Nat → UInt32} {words : UInt32} {l : List (Nat × Nat)}
    {m m' : List (BitVec 64)} (h : l.foldlM (store randInt words) m = some m') :
    m'.length = m.length ∧
      ∀ ij ∈ l, (UInt32.ofNat ij.1 * words + UInt32.ofNat ij.2).toNat < m.length := by
  induction l generalizing m with
  | nil =>
    obtain rfl := Option.some.inj h
    exact ⟨rfl, fun _ hmem => absurd hmem List.not_mem_nil⟩
  | cons ij l ih =>
    obtain ⟨m1, h1, hrest⟩ := Option.bind_eq_some_iff.mp h
    unfold store at h1
    dsimp only at h1
    split at h1
    case isTrue hlt =>
      obtain rfl := Option.some.inj h1
      obtain ⟨hlength, hl⟩ := ih hrest
      rw [List.length_set] at hlength hl
      refine ⟨hlength, fun x hx => ?_⟩
      obtain rfl | hx := List.mem_cons.mp hx
      exacts [hlt, hl x hx]
    case isFalse => exact nomatch h1

/-- A matrix that is filled has all of its words. -/
theorem length_fill {randInt : Nat → UInt32} {words numFuncs : UInt32} {m : List (BitVec 64)}
    (h : fill randInt words numFuncs = some m) : m.length = words.toNat * numFuncs.toNat ∧
      m.length < 2 ^ 32 := by
  obtain ⟨hlength, hall⟩ := length_stored h
  rw [List.length_replicate, UInt32.toNat_mul] at hlength hall
  have hlt : words.toNat * numFuncs.toNat < 2 ^ 32 := by
    by_contra! hge
    -- the entry of the loops whose index is the length
    set size := words.toNat * numFuncs.toNat % 2 ^ 32 with hsize
    have hwords : 0 < words.toNat := Nat.pos_of_ne_zero fun hzero => by
      rw [hzero, Nat.zero_mul] at hge
      omega
    have hless : size < words.toNat * numFuncs.toNat :=
      Nat.lt_of_lt_of_le (Nat.mod_lt _ (Nat.two_pow_pos 32)) hge
    have hmem : (size / words.toNat, size % words.toNat) ∈
        (List.range numFuncs.toNat).flatMap fun ii =>
          (List.range words.toNat).map fun jj => (ii, jj) := by
      simp only [List.mem_flatMap, List.mem_map, List.mem_range]
      refine ⟨_, Nat.div_lt_of_lt_mul hless, _, Nat.mod_lt _ hwords, rfl⟩
    have hindex := hall _ hmem
    rw [UInt32.toNat_add, UInt32.toNat_mul, UInt32.toNat_ofNat', UInt32.toNat_ofNat',
      Nat.mod_mul_mod, ← Nat.add_mod, Nat.div_add_mod'] at hindex
    have hsmall : size < 2 ^ 32 := Nat.mod_lt _ (Nat.two_pow_pos 32)
    rw [Nat.mod_eq_of_lt hsmall] at hindex
    exact Nat.lt_irrefl _ hindex
  rw [Nat.mod_eq_of_lt hlt] at hlength
  exact ⟨hlength, hlength ▸ hlt⟩

/-- A family has all words of its functions. -/
structure H3HashFamily where
  numFuncs : UInt32
  resShift : Nat
  hMatrix : List (BitVec 64)
  resShift_le : resShift ≤ 3
  length_eq : hMatrix.length = wordsOf resShift * numFuncs.toNat
  length_lt : hMatrix.length < 2 ^ 32

theorem resShiftOf_le {outputBits : UInt32} {resShift : Nat}
    (h : resShiftOf outputBits = some resShift) : resShift ≤ 3 := by
  unfold resShiftOf at h
  repeat' split at h
  all_goals cases h
  all_goals decide

theorem toNat_wordsOf {resShift : Nat} (h : resShift ≤ 3) :
    (UInt32.ofNat (wordsOf resShift)).toNat = wordsOf resShift := by
  interval_cases resShift <;> rfl

/-- The constructor. -/
def init (numFunctions outputBits : UInt32) (randInt : Nat → UInt32) : Option H3HashFamily :=
  match hshift : resShiftOf outputBits with
  | some resShift =>
    match hfill : fill randInt (UInt32.ofNat (wordsOf resShift)) numFunctions with
    | some hMatrix =>
      have hle := resShiftOf_le hshift
      some ⟨numFunctions, resShift, hMatrix, hle,
        (length_fill hfill).1.trans (by rw [toNat_wordsOf hle]), (length_fill hfill).2⟩
    | none => none
  | none => none

/-! ### `hash` -/

/-- `(v << k) | (v >> (64 - k))` -/
def rotl (v : BitVec 64) (k : Nat) : BitVec 64 := (v <<< k) ||| (v >>> (64 - k))

/-- The fold at the end. -/
def fold (resShift : Nat) (res : BitVec 64) : BitVec 64 :=
  match resShift with
  | 0 => res
  | 1 => (res >>> 32) ^^^ res
  | 2 =>
    let res := (res >>> 32) ^^^ res
    (res >>> 16) ^^^ res
  | 3 =>
    let res := (res >>> 32) ^^^ res
    let res := (res >>> 16) ^^^ res
    (res >>> 8) ^^^ res
  | _ => res

namespace H3HashFamily

variable (f : H3HashFamily)

def words : Nat := wordsOf f.resShift

def word (index : UInt32) : Option (BitVec 64) := f.hMatrix[index.toNat]?

/-- The values of `base` in the loop over `x`. -/
def bases (id : UInt32) : List UInt32 :=
  (List.range (f.words / 8)).map fun b =>
    (id <<< UInt32.ofNat (6 - f.resShift)) + UInt32.ofNat (8 * b)

/-- The body of the loop. -/
def round (val res : BitVec 64) (base : UInt32) : Option (BitVec 64) := do
  let res0 := val &&& (← f.word base)
  let res1 := val &&& (← f.word (base + 1))
  let res2 := val &&& (← f.word (base + 2))
  let res3 := val &&& (← f.word (base + 3))
  let res4 := val &&& (← f.word (base + 4))
  let res5 := val &&& (← f.word (base + 5))
  let res6 := val &&& (← f.word (base + 6))
  let res7 := val &&& (← f.word (base + 7))
  let res := res ^^^ (res0 ^^^ rotl res1 1 ^^^ rotl res2 2 ^^^ rotl res3 3)
  let res := res ^^^ (rotl res4 4 ^^^ rotl res5 5 ^^^ rotl res6 6 ^^^ rotl res7 7)
  return rotl res 8

def hash (id : UInt32) (val : BitVec 64) : Option (BitVec 64) :=
  if id < f.numFuncs then
    ((f.bases id).foldlM (f.round val) 0).map (fold f.resShift)
  else none

end H3HashFamily

/-! ### The loop of the comment -/

/-- `res ^= val & word(x); res = (res << 1) | (res >> 63);` for each of `n` words. -/
def reference (word : Nat → BitVec 64) (n : Nat) (val : BitVec 64) : BitVec 64 :=
  (List.range n).foldl (fun res x => rotl (res ^^^ (val &&& word x)) 1) 0

end Doppelganger.Hash
