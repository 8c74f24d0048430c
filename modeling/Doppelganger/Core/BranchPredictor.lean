import Doppelganger.Types
import Mathlib.Logic.Function.Basic
import Mathlib.Tactic.Common

/-! `BranchPredictorPAg<NB, HB, LB>` of `ooo_core.h`: a history register for each of `2^NB` classes
of branches, which keeps `HB` outcomes, and saturating counters that are found by a folded
history. -/

namespace Doppelganger.Core

open Function

/-- The history registers, and the pattern history table of 2-bit counters. -/
structure BranchPredictor where
  bhsr : ℕ → UInt32
  pht : ℕ → ℕ

/-- `NB`, `HB` and `LB`, with the assertions of the constructor. -/
structure PredictorSizes where
  NB : ℕ
  HB : ℕ
  LB : ℕ
  le : LB ≤ HB
  ge : NB ≤ LB
  lt : HB < 32

/-- `BranchPredictorPAg<11, 18, 14>` of the out-of-order core. -/
def PredictorSizes.ooo : PredictorSizes := ⟨11, 18, 14, by decide, by decide, by decide⟩

namespace BranchPredictor

/-- Weakly not taken. -/
def init : BranchPredictor := ⟨fun _ => 0, fun _ => 1⟩

variable (z : PredictorSizes)

/-- `(1 << bits) - 1` -/
def mask (bits : ℕ) : UInt32 := (1 : UInt32) <<< bits.toUInt32 - 1

/-- The history register of a branch. -/
def bhsrIdx (branchPc : Address) : ℕ := ((branchPc >>> 1).toUInt32 &&& mask z.NB).toNat

/-- `take the [HB-1, LB] bits of bshr, XOR with [LB-1, ...] bits` -/
def phtIdx (bhsr : UInt32) : ℕ :=
  ((bhsr ^^^ (bhsr &&& ~~~mask z.LB) >>> (z.HB - z.LB).toUInt32) &&& mask z.LB).toNat

/-- The 2-bit saturating counter, where `pred` is its prediction. -/
def count (taken pred : Bool) (counter : ℕ) : ℕ :=
  if taken then if pred then 3 else counter + 1 else if pred then counter - 1 else 0

/-- The history with one more outcome. -/
def shift (taken : Bool) (bhsr : UInt32) : UInt32 :=
  (bhsr <<< 1 &&& mask z.HB) ||| if taken then 1 else 0

/-- The prediction for a branch. -/
def predicts (branchPc : Address) (s : BranchPredictor) : Bool :=
  1 < s.pht (phtIdx z (s.bhsr (bhsrIdx z branchPc)))

/-- The predictor after `predict` with `useA2`, which returns `taken == pred`. -/
def update (branchPc : Address) (taken : Bool) (s : BranchPredictor) : BranchPredictor :=
  let i := bhsrIdx z branchPc
  let j := phtIdx z (s.bhsr i)
  { pht := Function.update s.pht j (count taken (s.predicts z branchPc) (s.pht j))
    bhsr := Function.update s.bhsr i (shift z taken (s.bhsr i)) }

end BranchPredictor

end Doppelganger.Core
