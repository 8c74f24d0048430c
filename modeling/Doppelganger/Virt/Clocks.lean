import Mathlib.Algebra.Group.Int.Defs
import Mathlib.Algebra.Group.Nat.Defs
import Mathlib.Algebra.Order.Group.Unbundled.Int
import Mathlib.Tactic.Common

/-! The clocks that guests see (`virt/time_conv.h`, `virt/time.cpp`): simulated time is the cycles
of the phases that ended, and each clock of a clock domain has an offset to it.  Words of 64 bits
are numbers below `2^64`. -/

namespace Doppelganger.Virt

/-- The frequency, the length of a phase, and the phases and cycles so far. -/
structure Zinfo where
  freqMHz : Nat
  phaseLength : Nat
  numPhases : Nat
  globPhaseCycles : Nat
  freq_pos : 0 < freqMHz
  phase_pos : 0 < phaseLength
  freq_lt : freqMHz < 2 ^ 32
  phase_lt : phaseLength < 2 ^ 32
  cycles_lt : globPhaseCycles < 2 ^ 64

/-- Phases of 10 us at 1 GHz. -/
def tenMicros : Zinfo where
  freqMHz := 1000
  phaseLength := 10000
  numPhases := 0
  globPhaseCycles := 0
  freq_pos := by decide
  phase_pos := by decide
  freq_lt := by decide
  phase_lt := by decide
  cycles_lt := by decide

/-- After `n` more phases. -/
def Zinfo.later (z : Zinfo) (n : Nat) : Zinfo :=
  { z with
    numPhases := z.numPhases + n
    globPhaseCycles := (z.globPhaseCycles + n * z.phaseLength) % 2 ^ 64
    cycles_lt := Nat.mod_lt _ (Nat.two_pow_pos 64) }

/-- `ClockDomainInfo`. -/
structure ClockDomainInfo where
  realtimeOffsetNs : Nat
  monotonicOffsetNs : Nat
  processOffsetNs : Nat
deriving DecidableEq, Repr

structure Timespec where
  tv_sec : Int
  tv_nsec : Int
deriving DecidableEq, Repr

/-! ### Conversions -/

/-- ns per s. -/
def NSPS : Nat := 1000 * 1000 * 1000

/-- The time of a `timespec`, in ns. -/
def Timespec.ns (ts : Timespec) : Int := ts.tv_sec * NSPS + ts.tv_nsec

/-- What the kernel accepts; otherwise it returns `EINVAL`. -/
def Timespec.Valid (ts : Timespec) : Prop :=
  0 ≤ ts.tv_sec ∧ 0 ≤ ts.tv_nsec ∧ ts.tv_nsec ≤ 999999999

instance (ts : Timespec) : Decidable ts.Valid := inferInstanceAs (Decidable (_ ∧ _ ∧ _))

def timespecToNs (ts : Timespec) : Nat := (ts.ns % 2 ^ 64).toNat

def nsToTimespec (ns : Nat) : Timespec := ⟨ns / NSPS, ns % NSPS⟩

variable (z : Zinfo)

def cyclesToNs (cycles : Nat) : Nat := cycles * 1000 % 2 ^ 64 / z.freqMHz

def nsToCycles (ns : Nat) : Nat := ns * z.freqMHz % 2 ^ 64 / 1000

theorem Timespec.Valid.nonneg {ts : Timespec} (h : ts.Valid) : 0 ≤ ts.ns := by
  obtain ⟨hsec, hnsec, -⟩ := h
  unfold Timespec.ns NSPS
  omega

theorem nsToTimespec_ns (ns : Nat) : (nsToTimespec ns).ns = ns := by
  unfold nsToTimespec Timespec.ns NSPS
  dsimp only
  omega

/-! ### Clocks -/

/-- The clocks that `VirtClockGettime` knows. -/
inductive ClockId
  | CLOCK_REALTIME
  | CLOCK_MONOTONIC
  | CLOCK_PROCESS_CPUTIME_ID
  | CLOCK_THREAD_CPUTIME_ID
deriving DecidableEq, Repr

/-- The offset of a clock; that of a process stands for those of its threads. -/
def clockOffset (dom : ClockDomainInfo) : ClockId → Nat
  | .CLOCK_REALTIME => dom.realtimeOffsetNs
  | .CLOCK_MONOTONIC => dom.monotonicOffsetNs
  | .CLOCK_PROCESS_CPUTIME_ID => dom.processOffsetNs
  | .CLOCK_THREAD_CPUTIME_ID => dom.processOffsetNs

/-- `VirtClockGettime`. -/
def virtClockGettime (dom : ClockDomainInfo) (arg0 : ClockId) : Timespec :=
  nsToTimespec ((clockOffset dom arg0 + cyclesToNs z z.globPhaseCycles) % 2 ^ 64)

/-- What a clock reports after `n` more phases, in ns. -/
def clockAt (dom : ClockDomainInfo) (clock : ClockId) (n : Nat) : Int :=
  (virtClockGettime (z.later n) dom clock).ns

theorem clockAt_eq (dom : ClockDomainInfo) (clock : ClockId) (n : Nat) :
    clockAt z dom clock n = ((clockOffset dom clock +
      cyclesToNs z ((z.globPhaseCycles + n * z.phaseLength) % 2 ^ 64)) % 2 ^ 64 : Nat) :=
  nsToTimespec_ns _

theorem clockAt_zero (dom : ClockDomainInfo) (clock : ClockId) : clockAt z dom clock 0 =
    ((clockOffset dom clock + cyclesToNs z z.globPhaseCycles) % 2 ^ 64 : Nat) := by
  rw [clockAt_eq, Nat.zero_mul, Nat.add_zero, Nat.mod_eq_of_lt z.cycles_lt]

/-- Whole phases in a time are those that its cycles hold, even without rounding the cycles down. -/
theorem nsToCycles_div (ns : Nat) : nsToCycles z ns / z.phaseLength =
    ns * z.freqMHz % 2 ^ 64 / (1000 * z.phaseLength) :=
  Nat.div_div_eq_div_mul _ _ _

end Doppelganger.Virt
