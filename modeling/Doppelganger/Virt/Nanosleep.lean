import Doppelganger.Virt.Clocks

/-! `PatchNanosleep` of `virt/time.cpp`: a sleep becomes a wait for a phase, and one that a signal
ends reports how much of it is left. -/

namespace Doppelganger.Virt

/-- The arguments of `nanosleep` or, when `isClock`, of `clock_nanosleep`. -/
structure NanosleepArgs where
  isClock : Bool
  clockid : ClockId
  flags : Int
  ts : Timespec
deriving DecidableEq, Repr

def TIMER_ABSTIME : Int := 1

def EINTR : Int := 4

def EWOULDBLOCK : Int := 11

variable (z : Zinfo) (dom : ClockDomainInfo) (args : NanosleepArgs)

/-- A deadline, and not a time to sleep. -/
def NanosleepArgs.Absolute : Prop := args.isClock = true ∧ args.flags = TIMER_ABSTIME

instance : Decidable args.Absolute := inferInstanceAs (Decidable (_ ∧ _))

/-- `PatchNanosleep` before the call: the phase to wake up at, or `none` when the kernel returns
`EINVAL`.  The clock is not looked at. -/
def patchNanosleep : Option Nat :=
  let offsetNsec := if args.Absolute then
      (cyclesToNs z z.globPhaseCycles + dom.realtimeOffsetNs) % 2 ^ 64
    else 0
  if args.ts.Valid then
    let waitNsec := timespecToNs args.ts
    let waitNsec := if waitNsec ≥ offsetNsec then waitNsec - offsetNsec else 0
    let waitCycles := nsToCycles z waitNsec
    let waitPhases := waitCycles / z.phaseLength + 1
    some (z.numPhases + waitPhases)
  else none

/-- `PatchNanosleep` after the call, which returned `-res`: what the guest gets, and the remaining
time; `none` when an assertion fails. -/
def postPatchNanosleep (wakeupPhase : Nat) (res : Int) : Option (Int × Timespec) :=
  if res = EINTR then
    if wakeupPhase ≥ z.numPhases then
      let remainingCycles := wakeupPhase - z.numPhases
      let remainingNsecs := remainingCycles * 1000 % 2 ^ 64 / z.freqMHz
      some (-EINTR, nsToTimespec remainingNsecs)
    else none
  else if res = EWOULDBLOCK ∨ res = 0 then some (0, ⟨0, 0⟩)
  else none

/-- The time from what the realtime clock reports to a deadline. -/
def realtimeWait (z : Zinfo) (dom : ClockDomainInfo) (ts : Timespec) : Nat :=
  timespecToNs ts - (clockAt z dom .CLOCK_REALTIME 0).toNat

/-- The time to sleep that is asked for, in ns. -/
def NanosleepArgs.requestedNs : Nat :=
  if args.Absolute then realtimeWait z dom args.ts else timespecToNs args.ts

variable {z dom args} {ts : Timespec} {clock : ClockId} {k e : Nat}

theorem patchNanosleep_eq (hvalid : args.ts.Valid) : patchNanosleep z dom args =
    some (z.numPhases + (nsToCycles z (args.requestedNs z dom) / z.phaseLength + 1)) := by
  have hnow : (cyclesToNs z z.globPhaseCycles + dom.realtimeOffsetNs) % 2 ^ 64 =
      (clockAt z dom .CLOCK_REALTIME 0).toNat := by
    rw [clockAt_zero, Int.toNat_natCast, Nat.add_comm, clockOffset]
  have hsub : ∀ offset : Nat, (if timespecToNs args.ts ≥ offset then timespecToNs args.ts - offset
      else 0) = timespecToNs args.ts - offset := fun offset => by
    split
    case isTrue => rfl
    case isFalse hlt => rw [Nat.sub_eq_zero_of_le (Nat.le_of_not_le hlt)]
  unfold patchNanosleep NanosleepArgs.requestedNs realtimeWait
  dsimp only
  rw [if_pos hvalid, hsub, hnow]
  split
  case isTrue => rfl
  case isFalse => rw [Nat.sub_zero]

/-! ### Absolute deadlines -/

/-- Waking up after `k` phases is right for a deadline `t` of a clock: it is the first phase
boundary at which the clock reports at least `t`, or the next one when `t` has passed. -/
def Wakes (z : Zinfo) (dom : ClockDomainInfo) (clock : ClockId) (t : Int) (k : Nat) : Prop :=
  if t ≤ clockAt z dom clock 0 then k = 1
  else t ≤ clockAt z dom clock k ∧ ∀ n < k, clockAt z dom clock n < t

/-- The part of a ns that simulated time is ahead of what the clocks report.  This and the times
below are in ns times MHz. -/
def Zinfo.fraction (z : Zinfo) : Nat := 1000 * z.globPhaseCycles % 2 ^ 64 % z.freqMHz

/-- No word of a clock overflows for some time. -/
def Holds (z : Zinfo) (dom : ClockDomainInfo) (clock : ClockId) (time : Nat) : Prop :=
  1000 * z.globPhaseCycles % 2 ^ 64 + time < 2 ^ 64 ∧
    clockAt z dom clock 0 + ((z.fraction + time) / z.freqMHz : Nat) < 2 ^ 64

instance {time : Nat} : Decidable (Holds z dom clock time) :=
  inferInstanceAs (Decidable (_ ∧ _))

/-- The time to a deadline that is to come on its own clock. -/
def timeLeft (z : Zinfo) (dom : ClockDomainInfo) (clock : ClockId) (ts : Timespec) : Nat :=
  (ts.ns - clockAt z dom clock 0).toNat * z.freqMHz - z.fraction

/-- By how much a wait on the realtime clock exceeds the time to the deadline: by what the clocks do
not report of the time and what the clock of the deadline is ahead of the realtime clock, less what
overflows of the product with the frequency. -/
def overshoot (z : Zinfo) (dom : ClockDomainInfo) (clock : ClockId) (ts : Timespec) : Int :=
  z.fraction + (clockAt z dom clock 0 - clockAt z dom .CLOCK_REALTIME 0) * z.freqMHz -
    2 ^ 64 * ((ts.ns - clockAt z dom .CLOCK_REALTIME 0) * z.freqMHz / 2 ^ 64)

/-- A wait on the realtime clock ends in the phase of the deadline.  When the deadline has passed on
its own clock, the wait is less than a phase.  Else no word of the clock overflows up to the end of
that phase; and when the deadline has passed on the realtime clock, it is in the next phase, else
its place in its phase and what the wait exceeds it by make a place in the same phase. -/
def Agrees (z : Zinfo) (dom : ClockDomainInfo) (clock : ClockId) (ts : Timespec) : Prop :=
  let phase := 1000 * z.phaseLength
  let last := timeLeft z dom clock ts - 1
  if ts.ns ≤ clockAt z dom clock 0 then realtimeWait z dom ts * z.freqMHz % 2 ^ 64 < phase
  else Holds z dom clock ((last / phase + 1) * phase) ∧
    if ts.ns ≤ clockAt z dom .CLOCK_REALTIME 0 then last < phase
    else 0 ≤ (last % phase + 1 : Nat) + overshoot z dom clock ts ∧
      (last % phase + 1 : Nat) + overshoot z dom clock ts < (phase : Nat)

/-- The time until the end of the phase in which a wait on the realtime clock ends. -/
def sleepTime (z : Zinfo) (dom : ClockDomainInfo) (ts : Timespec) : Nat :=
  (realtimeWait z dom ts * z.freqMHz % 2 ^ 64 / (1000 * z.phaseLength) + 1) * (1000 * z.phaseLength)

section Deadlines

variable {n m : Nat}

theorem Zinfo.fraction_lt : z.fraction < z.freqMHz := Nat.mod_lt _ z.freq_pos

theorem timeLeft_pos (hfuture : clockAt z dom clock 0 < ts.ns) : 0 < timeLeft z dom clock ts := by
  have hns : 1 ≤ (ts.ns - clockAt z dom clock 0).toNat := by omega
  have hmul := Nat.mul_le_mul_right z.freqMHz hns
  have hfraction := z.fraction_lt
  unfold timeLeft
  omega

theorem Holds.mono (h : Holds z dom clock m) (hle : n ≤ m) : Holds z dom clock n := by
  have hdiv := Nat.div_le_div_right (c := z.freqMHz) (Nat.add_le_add_left hle z.fraction)
  obtain ⟨hcycles, hns⟩ := h
  exact ⟨by omega, by omega⟩

/-- Until a word overflows, a clock advances by the ns of the phases. -/
theorem clockAt_phases (h : Holds z dom clock (n * (1000 * z.phaseLength))) :
    clockAt z dom clock n =
      clockAt z dom clock 0 + ((z.fraction + n * (1000 * z.phaseLength)) / z.freqMHz : Nat) := by
  obtain ⟨hcycles, hns⟩ := h
  have hword : (z.globPhaseCycles + n * z.phaseLength) % 2 ^ 64 * 1000 % 2 ^ 64 =
      1000 * z.globPhaseCycles % 2 ^ 64 + n * (1000 * z.phaseLength) := by
    rw [← Nat.mod_eq_of_lt hcycles, Nat.mod_add_mod, Nat.mod_mul_mod, Nat.add_mul,
      Nat.mul_comm 1000, Nat.mul_assoc, Nat.mul_comm 1000]
  have hdiv : cyclesToNs z ((z.globPhaseCycles + n * z.phaseLength) % 2 ^ 64) =
      cyclesToNs z z.globPhaseCycles +
        (z.fraction + n * (1000 * z.phaseLength)) / z.freqMHz := by
    unfold cyclesToNs Zinfo.fraction
    rw [hword, Nat.mul_comm z.globPhaseCycles, ← Nat.mul_add_div z.freq_pos, ← Nat.add_assoc,
      Nat.div_add_mod]
  rw [clockAt_zero] at hns ⊢
  rw [clockAt_eq, hdiv, ← Nat.add_assoc, Nat.add_mod, Nat.mod_eq_of_lt (a := _ / _) (by omega),
    Nat.mod_eq_of_lt (by omega), Int.natCast_add]

/-- At the end of a phase a clock reports a deadline that was to come when the time to it is
over. -/
theorem reports_iff (h : Holds z dom clock (n * (1000 * z.phaseLength)))
    (hfuture : clockAt z dom clock 0 < ts.ns) :
    ts.ns ≤ clockAt z dom clock n ↔ timeLeft z dom clock ts ≤ n * (1000 * z.phaseLength) := by
  obtain ⟨left, hleft⟩ : ∃ left : Nat, ts.ns - clockAt z dom clock 0 = left :=
    ⟨_, (Int.toNat_of_nonneg (by omega)).symm⟩
  rw [clockAt_phases h, timeLeft, hleft, Int.toNat_natCast, Nat.sub_le_iff_le_add',
    ← Nat.le_div_iff_mul_le z.freq_pos]
  omega

/-- A clock whose words do not overflow before it reports a deadline does so at the end of the phase
that the time to it ends in. -/
theorem wakes_iff (hfuture : clockAt z dom clock 0 < ts.ns)
    (h : Holds z dom clock (((timeLeft z dom clock ts - 1) / (1000 * z.phaseLength) + 1) *
      (1000 * z.phaseLength))) {k : Nat} :
    Wakes z dom clock ts.ns k ↔ k = (timeLeft z dom clock ts - 1) / (1000 * z.phaseLength) + 1 := by
  have hpos : 0 < 1000 * z.phaseLength := Nat.mul_pos (by decide) z.phase_pos
  have hreports : ∀ n ≤ (timeLeft z dom clock ts - 1) / (1000 * z.phaseLength) + 1,
      (ts.ns ≤ clockAt z dom clock n ↔
        (timeLeft z dom clock ts - 1) / (1000 * z.phaseLength) + 1 ≤ n) := fun n hn => by
    have hleft := timeLeft_pos hfuture
    rw [reports_iff (h.mono (Nat.mul_le_mul_right _ hn)) hfuture, Nat.succ_le_iff,
      Nat.div_lt_iff_lt_mul hpos]
    omega
  unfold Wakes
  rw [if_neg (Int.not_le.mpr hfuture)]
  constructor
  · rintro ⟨hlate, hearly⟩
    obtain hlt | heq | hgt := Nat.lt_trichotomy k ((timeLeft z dom clock ts - 1) /
      (1000 * z.phaseLength) + 1)
    · exact absurd ((hreports k hlt.le).mp hlate) (Nat.not_le_of_lt hlt)
    · exact heq
    · exact absurd ((hreports _ le_rfl).mpr le_rfl) (Int.not_le.mpr (hearly _ hgt))
  · rintro rfl
    refine ⟨(hreports _ le_rfl).mpr le_rfl, fun n hn => ?_⟩
    exact Int.not_le.mp (mt (hreports n hn.le).mp (Nat.not_le_of_lt hn))

/-- Moving a time moves it into no other phase when its place in the phase, moved, is still in
it. -/
theorem ediv_eq_iff {time move phase : Int} (hphase : 0 < phase) :
    (time + move) / phase = time / phase ↔
      0 ≤ time % phase + move ∧ time % phase + move < phase := by
  have hsplit := Int.emod_add_mul_ediv time phase
  rw [Int.ediv_eq_iff_of_pos hphase, Int.mul_comm]
  omega

/-- The wait on the realtime clock, which is that from its reading to the deadline but for what
overflows, is the time to the deadline and what it exceeds it by. -/
theorem wait_eq (hnow : clockAt z dom .CLOCK_REALTIME 0 < ts.ns)
    (hfuture : clockAt z dom clock 0 < ts.ns) (hlt : ts.ns < 2 ^ 64) :
    (realtimeWait z dom ts * z.freqMHz % 2 ^ 64 : Nat) =
      (timeLeft z dom clock ts - 1 : Nat) + (1 + overshoot z dom clock ts) := by
  have hpos := timeLeft_pos hfuture
  have hleft : (timeLeft z dom clock ts : Int) =
      (ts.ns - clockAt z dom clock 0) * z.freqMHz - z.fraction := by
    unfold timeLeft at hpos ⊢
    rw [Int.natCast_sub (by omega), Int.natCast_mul, Int.toNat_of_nonneg (by omega)]
  have hwait : (realtimeWait z dom ts : Int) = ts.ns - clockAt z dom .CLOCK_REALTIME 0 := by
    obtain ⟨now, hnow'⟩ : ∃ now : Nat, clockAt z dom .CLOCK_REALTIME 0 = now :=
      ⟨_, clockAt_zero _ _ _⟩
    rw [hnow'] at hnow
    unfold realtimeWait timespecToNs
    rw [hnow', Int.emod_eq_of_lt (by omega) hlt, Int.toNat_natCast]
    omega
  have hsum : (ts.ns - clockAt z dom .CLOCK_REALTIME 0) * z.freqMHz =
      (ts.ns - clockAt z dom clock 0) * z.freqMHz +
        (clockAt z dom clock 0 - clockAt z dom .CLOCK_REALTIME 0) * z.freqMHz := by
    rw [← Int.add_mul]
    congr 1
    omega
  have hmod := Int.emod_add_mul_ediv
    ((ts.ns - clockAt z dom .CLOCK_REALTIME 0) * z.freqMHz) (2 ^ 64)
  have hword : ((2 ^ 64 : Nat) : Int) = 2 ^ 64 := Int.natCast_pow 2 64
  unfold overshoot
  rw [Int.natCast_emod, Int.natCast_mul, hwait, hword]
  omega

/-- The wait on the realtime clock ends in the phase that the time to the deadline ends in. -/
theorem wait_div_iff (hnow : clockAt z dom .CLOCK_REALTIME 0 < ts.ns)
    (hfuture : clockAt z dom clock 0 < ts.ns) (hlt : ts.ns < 2 ^ 64) :
    realtimeWait z dom ts * z.freqMHz % 2 ^ 64 / (1000 * z.phaseLength) =
        (timeLeft z dom clock ts - 1) / (1000 * z.phaseLength) ↔
      0 ≤ ((timeLeft z dom clock ts - 1) % (1000 * z.phaseLength) + 1 : Nat) +
          overshoot z dom clock ts ∧
        ((timeLeft z dom clock ts - 1) % (1000 * z.phaseLength) + 1 : Nat) +
          overshoot z dom clock ts < (1000 * z.phaseLength : Nat) := by
  have hpos : 0 < 1000 * z.phaseLength := Nat.mul_pos (by decide) z.phase_pos
  rw [← Int.natCast_inj, Int.natCast_ediv, wait_eq hnow hfuture hlt, Int.natCast_ediv,
    ediv_eq_iff (Int.natCast_pos.mpr hpos), Int.natCast_add, Int.natCast_emod]
  omega

theorem clockAt_lt : clockAt z dom clock n < 2 ^ 64 := by
  rw [clockAt_eq]
  have hlt := Nat.mod_lt (clockOffset dom clock +
    cyclesToNs z ((z.globPhaseCycles + n * z.phaseLength) % 2 ^ 64)) (Nat.two_pow_pos 64)
  exact_mod_cast hlt

/-- A wait ends in the phase in which a clock reports a deadline that was to come before a word of
the clock overflows. -/
theorem wakes_wait_iff (hfuture : clockAt z dom clock 0 < ts.ns)
    (h : Holds z dom clock (((timeLeft z dom clock ts - 1) / (1000 * z.phaseLength) + 1) *
      (1000 * z.phaseLength))) :
    Wakes z dom clock ts.ns
        (realtimeWait z dom ts * z.freqMHz % 2 ^ 64 / (1000 * z.phaseLength) + 1) ↔
      if ts.ns ≤ clockAt z dom .CLOCK_REALTIME 0 then
        timeLeft z dom clock ts - 1 < 1000 * z.phaseLength
      else 0 ≤ ((timeLeft z dom clock ts - 1) % (1000 * z.phaseLength) + 1 : Nat) +
          overshoot z dom clock ts ∧
        ((timeLeft z dom clock ts - 1) % (1000 * z.phaseLength) + 1 : Nat) +
          overshoot z dom clock ts < (1000 * z.phaseLength : Nat) := by
  have hpos : 0 < 1000 * z.phaseLength := Nat.mul_pos (by decide) z.phase_pos
  have hlt : ts.ns < 2 ^ 64 := by
    have hwakes := ((wakes_iff hfuture h).mpr rfl)
    unfold Wakes at hwakes
    rw [if_neg (Int.not_le.mpr hfuture)] at hwakes
    exact hwakes.1.trans_lt clockAt_lt
  rw [wakes_iff hfuture h, Nat.add_right_cancel_iff]
  split
  case isTrue hnow =>
    have hzero : realtimeWait z dom ts = 0 := by
      have hnonneg := clockAt_zero z dom clock
      unfold realtimeWait timespecToNs
      rw [Int.emod_eq_of_lt (by omega) hlt]
      omega
    rw [hzero, Nat.zero_mul, Nat.zero_mod, Nat.zero_div, eq_comm, Nat.div_eq_zero_iff_lt hpos]
  case isFalse hnow => exact wait_div_iff (Int.not_le.mp hnow) hfuture hlt

/-- A clock of which no word overflows during a sleep reports the deadline by its end only when none
overflows up to the end of the deadline's phase. -/
theorem holds_of_reports (hfuture : clockAt z dom clock 0 < ts.ns)
    (h : Holds z dom clock (n * (1000 * z.phaseLength)))
    (hreports : ts.ns ≤ clockAt z dom clock n) :
    Holds z dom clock (((timeLeft z dom clock ts - 1) / (1000 * z.phaseLength) + 1) *
      (1000 * z.phaseLength)) := by
  have hpos : 0 < 1000 * z.phaseLength := Nat.mul_pos (by decide) z.phase_pos
  have hleft := timeLeft_pos hfuture
  have hover := (reports_iff h hfuture).mp hreports
  have hphases : (timeLeft z dom clock ts - 1) / (1000 * z.phaseLength) + 1 ≤ n := by
    rw [Nat.succ_le_iff, Nat.div_lt_iff_lt_mul hpos]
    omega
  exact h.mono (Nat.mul_le_mul_right _ hphases)

end Deadlines

/-- A sleep until a deadline wakes up when it should when the realtime clock agrees with the clock
of the deadline, and else only when a word of that clock overflows during the sleep. -/
theorem absolute_sleep_right (hvalid : ts.Valid) :
    (Agrees z dom clock ts →
      ∃ k, patchNanosleep z dom ⟨true, clock, TIMER_ABSTIME, ts⟩ = some (z.numPhases + k) ∧
        Wakes z dom clock ts.ns k) ∧
    ((∃ k, patchNanosleep z dom ⟨true, clock, TIMER_ABSTIME, ts⟩ = some (z.numPhases + k) ∧
        Wakes z dom clock ts.ns k) →
      Agrees z dom clock ts ∨ ¬ Holds z dom clock (sleepTime z dom ts)) := by
  have hpos : 0 < 1000 * z.phaseLength := Nat.mul_pos (by decide) z.phase_pos
  have habs : (⟨true, clock, TIMER_ABSTIME, ts⟩ : NanosleepArgs).Absolute := ⟨rfl, rfl⟩
  rw [patchNanosleep_eq hvalid, NanosleepArgs.requestedNs, if_pos habs, nsToCycles_div]
  unfold Agrees
  dsimp only
  by_cases hpassed : ts.ns ≤ clockAt z dom clock 0
  · rw [if_pos hpassed, ← Nat.div_eq_zero_iff_lt hpos]
    refine ⟨fun hzero => ⟨_, rfl, ?_⟩, ?_⟩
    · rw [Wakes, if_pos hpassed, hzero]
    · rintro ⟨k, heq, hwakes⟩
      rw [Wakes, if_pos hpassed] at hwakes
      exact .inl (Nat.succ.inj ((Nat.add_left_cancel (Option.some.inj heq)).trans hwakes))
  · have hfuture := Int.not_le.mp hpassed
    rw [if_neg hpassed]
    refine ⟨fun ⟨hholds, hplace⟩ => ⟨_, rfl, (wakes_wait_iff hfuture hholds).mpr hplace⟩, ?_⟩
    rintro ⟨k, heq, hwakes⟩
    obtain rfl := Nat.add_left_cancel (Option.some.inj heq)
    by_cases hsleep : Holds z dom clock (sleepTime z dom ts)
    · have hreports := hwakes
      rw [Wakes, if_neg hpassed] at hreports
      have hholds := holds_of_reports hfuture hsleep hreports.1
      exact .inl ⟨hholds, (wakes_wait_iff hfuture hholds).mp hwakes⟩
    · exact .inr hsleep

/-- On the realtime clock, when nothing overflows, the deadline is not so close to the end of its
phase that the part of a ns that no clock reports makes up for it. -/
theorem agrees_realtime (hfuture : clockAt z dom .CLOCK_REALTIME 0 < ts.ns)
    (hholds : Holds z dom .CLOCK_REALTIME (((timeLeft z dom .CLOCK_REALTIME ts - 1) /
      (1000 * z.phaseLength) + 1) * (1000 * z.phaseLength)))
    (hproduct : (ts.ns - clockAt z dom .CLOCK_REALTIME 0) * z.freqMHz < 2 ^ 64) :
    Agrees z dom .CLOCK_REALTIME ts ↔ (timeLeft z dom .CLOCK_REALTIME ts - 1) %
      (1000 * z.phaseLength) + 1 + z.fraction < 1000 * z.phaseLength := by
  have hexact : overshoot z dom .CLOCK_REALTIME ts = z.fraction := by
    have hnonneg := Int.mul_nonneg (Int.sub_nonneg_of_le hfuture.le) (Int.natCast_nonneg z.freqMHz)
    unfold overshoot
    rw [Int.ediv_eq_zero_of_lt hnonneg hproduct, Int.sub_self, Int.zero_mul]
    omega
  unfold Agrees
  dsimp only
  rw [if_neg (Int.not_le.mpr hfuture), if_neg (Int.not_le.mpr hfuture), and_iff_right hholds,
    hexact]
  omega

/-- A sleep until 100 us on the monotonic clock, whose realtime clock is far ahead, wakes up after
10 us. -/
theorem monotonic_sleep_short : ¬ ∃ k,
    patchNanosleep tenMicros ⟨1000000000000000000, 0, 0⟩
      ⟨true, .CLOCK_MONOTONIC, TIMER_ABSTIME, ⟨0, 100000⟩⟩ = some (tenMicros.numPhases + k) ∧
    Wakes tenMicros ⟨1000000000000000000, 0, 0⟩ .CLOCK_MONOTONIC 100000 k := by
  rintro ⟨k, hk, hwakes⟩
  have hone : patchNanosleep tenMicros ⟨1000000000000000000, 0, 0⟩
      ⟨true, .CLOCK_MONOTONIC, TIMER_ABSTIME, ⟨0, 100000⟩⟩ = some 1 := by decide +kernel
  have hk' : 1 = 0 + k := Option.some.inj (hone.symm.trans hk)
  obtain rfl : k = 1 := by omega
  have hpast : ¬ (100000 : Int) ≤ clockAt tenMicros ⟨1000000000000000000, 0,
    0⟩ .CLOCK_MONOTONIC 0 :=
    by decide +kernel
  unfold Wakes at hwakes
  rw [if_neg hpast] at hwakes
  exact absurd hwakes.1 (by decide +kernel)

theorem absolute_sleep_realtime : ∃ k,
    patchNanosleep tenMicros ⟨1000000000000000000, 0, 0⟩
      ⟨true, .CLOCK_REALTIME, TIMER_ABSTIME, ⟨1000000000, 101000⟩⟩ =
        some (tenMicros.numPhases + k) ∧
    Wakes tenMicros ⟨1000000000000000000, 0, 0⟩ .CLOCK_REALTIME
      (Timespec.ns ⟨1000000000, 101000⟩) k :=
  (absolute_sleep_right (by decide +kernel)).1 (by unfold Agrees; decide +kernel)

/-! ### Interrupted sleeps -/

/-- The part of a wait that is still to come after `e` phases. -/
def unslept (wait phase e : Nat) : Nat := wait - e * phase

/-- One cycle for each phase that the rest of the wait reaches into covers it, in whole ns.  Waits
and phases are in ns times MHz. -/
def Covered (freq phase wait e : Nat) : Prop :=
  let cycles := unslept wait phase e / phase + 1
  wait < 2 ^ 64 ∧ 1000 * cycles < 2 ^ 64 ∧ unslept wait phase e ≤ freq * (1000 * cycles / freq)

/-- What remains of a wait, and what has elapsed, is at least the wait and less than two phases
more. -/
def Remains (freq phase wait e : Nat) (remainder : Int) : Prop :=
  (wait : Int) ≤ remainder * freq + e * phase ∧ remainder * freq + e * phase < wait + 2 * phase

section Remainder

variable {freq phase wait e k : Nat}

/-- In phases of three cycles or more, the signal has to come in the last cycle of the sleep. -/
theorem covered_iff (hphase : 3000 ≤ phase) : Covered freq phase wait e ↔
    wait < 2 ^ 64 ∧ unslept wait phase e ≤ freq * (1000 / freq) := by
  unfold Covered
  generalize unslept wait phase e = rest
  have hone : rest / phase = 0 → 1000 * (rest / phase + 1) = 1000 := fun h => by rw [h]
  constructor
  · rintro ⟨hwait, -, hrest⟩
    have hle := hrest.trans (Nat.mul_div_le _ _)
    have hphases : 3000 * (rest / phase) ≤ rest :=
      (Nat.mul_le_mul_right _ hphase).trans (Nat.mul_div_le _ _)
    rw [hone (by omega)] at hrest
    exact ⟨hwait, hrest⟩
  · rintro ⟨hwait, hrest⟩
    have hle := hrest.trans (Nat.mul_div_le _ _)
    have hzero : rest / phase = 0 := Nat.div_eq_of_lt (by omega)
    dsimp only
    rw [hone hzero]
    exact ⟨hwait, by decide, hrest⟩

/-- The phases left, counted from the wait and not from the phase to wake up at. -/
theorem left_eq (he : e < wait / phase + 1) :
    unslept wait phase e / phase + 1 = wait / phase + 1 - e := by
  rw [unslept, Nat.mul_comm, Nat.sub_mul_div]
  omega

/-- What is left when cycles are counted as phases never exceeds what is left of the wait by more
than a phase. -/
theorem remainder_le (hphase : 1000 ≤ phase) (he : e ≤ k) :
    freq * (1000 * (k - e) % 2 ^ 64 / freq) + e * phase ≤ k * phase := by
  have hrem : freq * (1000 * (k - e) % 2 ^ 64 / freq) ≤ 1000 * (k - e) :=
    (Nat.mul_div_le _ _).trans (Nat.mod_le _ _)
  have hcycles : 1000 * (k - e) ≤ phase * (k - e) := Nat.mul_le_mul_right _ hphase
  have hsplit : (k - e) * phase + e * phase = k * phase := by
    rw [← Nat.add_mul, Nat.sub_add_cancel he]
  rw [Nat.mul_comm phase] at hcycles
  omega

/-- No remainder covers a wait whose product overflows. -/
theorem no_overflow (hphase : 1000 ≤ phase) (hlt : phase < 2 ^ 64) (he :
    e ≤ wait % 2 ^ 64 / phase + 1)
    (hcovers : wait ≤ freq * (1000 * (wait % 2 ^ 64 / phase + 1 - e) % 2 ^ 64 / freq) + e * phase) :
    wait < 2 ^ 64 := by
  have hle := hcovers.trans (remainder_le hphase he)
  have hdiv := Nat.div_mul_le_self (wait % 2 ^ 64) phase
  rw [Nat.add_mul, Nat.one_mul] at hle
  omega

theorem remains_iff (hphase : 1000 ≤ phase) (hlt : phase < 2 ^ 64)
    (hk : k = wait % 2 ^ 64 / phase + 1) (he : e ≤ k) :
    Remains freq phase wait e (1000 * (k - e) % 2 ^ 64 / freq : Nat) ↔ Covered freq phase wait e :=
      by
  subst hk
  have hremains : ∀ rem : Nat, Remains freq phase wait e rem ↔
      wait ≤ freq * rem + e * phase ∧ freq * rem + e * phase < wait + 2 * phase := fun rem => by
    unfold Remains
    rw [Nat.mul_comm freq]
    norm_cast
  rw [hremains]
  unfold Covered
  have hmul : (wait / phase + 1) * phase = wait / phase * phase + phase := by
    rw [Nat.add_mul, Nat.one_mul]
  have hfloor := Nat.div_mul_le_self wait phase
  have hceil : wait < (wait / phase + 1) * phase := by
    have hmod := Nat.mod_lt wait (show phase > 0 by omega)
    have hdiv := Nat.div_add_mod' wait phase
    omega
  constructor
  · rintro ⟨hcovers, -⟩
    have hwait := no_overflow hphase hlt he hcovers
    rw [Nat.mod_eq_of_lt hwait] at hcovers he
    refine ⟨hwait, ?_⟩
    obtain hbefore | rfl := Nat.lt_or_eq_of_le he
    · have hsplit : (wait / phase + 1 - e) * phase + e * phase = (wait / phase + 1) * phase := by
        rw [← Nat.add_mul, Nat.sub_add_cancel he]
      have hcycles := Nat.mul_le_mul_left (wait / phase + 1 - e) hphase
      rw [left_eq hbefore]
      have hfits : 1000 * (wait / phase + 1 - e) < 2 ^ 64 := by
        by_contra hge
        have hrem := Nat.mul_div_le (1000 * (wait / phase + 1 - e) % 2 ^ 64) freq
        rw [Nat.mod_eq_sub_mod (Nat.le_of_not_lt hge)] at hrem hcovers
        have hmod := Nat.mod_le (1000 * (wait / phase + 1 - e) - 2 ^ 64) (2 ^ 64)
        omega
      rw [Nat.mod_eq_of_lt hfits] at hcovers
      exact ⟨hfits, Nat.sub_le_iff_le_add.mpr hcovers⟩
    · rw [unslept, Nat.sub_eq_zero_of_le hceil.le, Nat.zero_div]
      exact ⟨by decide, Nat.zero_le _⟩
  · rintro ⟨hwait, hfits, hrest⟩
    rw [Nat.mod_eq_of_lt hwait] at he ⊢
    have hupper := @remainder_le freq phase e _ hphase he
    refine ⟨?_, by omega⟩
    obtain hbefore | rfl := Nat.lt_or_eq_of_le he
    · rw [left_eq hbefore] at hfits hrest
      rw [Nat.mod_eq_of_lt hfits]
      exact Nat.sub_le_iff_le_add.mp hrest
    · omega

end Remainder

/-- A sleep that a signal ends after `e` phases reports a time that makes up for the rest of it
exactly when one cycle for each phase of the rest does. -/
theorem interrupted_sleep_iff (hk : patchNanosleep z dom args = some (z.numPhases + k)) (he :
    e ≤ k) :
    (∃ rem, postPatchNanosleep (z.later e) (z.numPhases + k) EINTR = some (-EINTR, rem) ∧
      Remains z.freqMHz (1000 * z.phaseLength) (args.requestedNs z dom * z.freqMHz) e rem.ns) ↔
    Covered z.freqMHz (1000 * z.phaseLength) (args.requestedNs z dom * z.freqMHz) e := by
  have hvalid : args.ts.Valid := by
    by_contra hinvalid
    unfold patchNanosleep at hk
    rw [if_neg hinvalid] at hk
    exact absurd hk.symm (Option.some_ne_none _)
  have hphases : k = args.requestedNs z dom * z.freqMHz % 2 ^ 64 / (1000 * z.phaseLength) + 1 := by
    rw [patchNanosleep_eq hvalid, nsToCycles_div] at hk
    exact (Nat.add_left_cancel (Option.some.inj hk)).symm
  have hremainder : postPatchNanosleep (z.later e) (z.numPhases + k) EINTR =
      some (-EINTR, nsToTimespec (1000 * (k - e) % 2 ^ 64 / z.freqMHz)) := by
    have hwakeup : z.numPhases + k ≥ (z.later e).numPhases := Nat.add_le_add_left he _
    have hleft : z.numPhases + k - (z.later e).numPhases = k - e := Nat.add_sub_add_left _ _ _
    unfold postPatchNanosleep
    rw [if_pos rfl, if_pos hwakeup, hleft, Nat.mul_comm]
    rfl
  have hpos := z.phase_pos
  have hlt := z.phase_lt
  rw [← remains_iff (by omega) (by omega) hphases he, ← nsToTimespec_ns]
  constructor
  · rintro ⟨rem, hrem, hremains⟩
    rw [hremainder] at hrem
    obtain rfl := (Prod.mk.inj (Option.some.inj hrem)).2
    exact hremains
  · exact fun hremains => ⟨_, hremainder, hremains⟩

/-- A sleep of 100 us that a signal ends after 10 us reports 10 ns. -/
theorem interrupted_sleep_short : ∃ k, 1 ≤ k ∧
    patchNanosleep tenMicros ⟨0, 0, 0⟩ ⟨false, .CLOCK_REALTIME, 0, ⟨0, 100000⟩⟩ =
      some (tenMicros.numPhases + k) ∧
    ¬ ∃ rem, postPatchNanosleep (tenMicros.later 1) (tenMicros.numPhases + k) EINTR =
        some (-EINTR, rem) ∧
      Remains tenMicros.freqMHz (1000 * tenMicros.phaseLength) (100000 * tenMicros.freqMHz) 1
        rem.ns := by
  refine ⟨11, by decide, by decide +kernel, ?_⟩
  rintro ⟨rem, hrem, hremains, -⟩
  have hten : postPatchNanosleep (tenMicros.later 1) (tenMicros.numPhases + 11) EINTR =
      some (-EINTR, ⟨0, 10⟩) := by decide +kernel
  rw [hten] at hrem
  obtain rfl := (Prod.mk.inj (Option.some.inj hrem)).2
  exact absurd hremains (by decide +kernel)

theorem interrupted_sleep_last :
    (∃ rem, postPatchNanosleep (tenMicros.later 10) (tenMicros.numPhases + 11) EINTR =
        some (-EINTR, rem) ∧
      Remains tenMicros.freqMHz (1000 * tenMicros.phaseLength)
        (NanosleepArgs.requestedNs tenMicros ⟨0, 0, 0⟩ ⟨false, .CLOCK_REALTIME, 0, ⟨0, 100000⟩⟩ *
          tenMicros.freqMHz) 10 rem.ns) ↔
    Covered tenMicros.freqMHz (1000 * tenMicros.phaseLength)
      (NanosleepArgs.requestedNs tenMicros ⟨0, 0, 0⟩ ⟨false, .CLOCK_REALTIME, 0, ⟨0, 100000⟩⟩ *
        tenMicros.freqMHz) 10 :=
  interrupted_sleep_iff (by decide +kernel) (by decide)

end Doppelganger.Virt
