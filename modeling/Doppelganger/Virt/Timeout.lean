import Doppelganger.Virt.Clocks
import Mathlib.Logic.Function.Basic

/-! `PrePatchTimeoutSyscall` of `virt/timeout.cpp`: a call with a timeout becomes a short one that
is retried until a phase to wake up at.  What the wait is, and on which clock, depends on the
operation. -/

namespace Doppelganger.Virt

/-- A register. -/
abbrev ADDRINT := BitVec 64

/-- The calls that `PatchTimeoutSyscall` patches. -/
inductive Syscall
  | SYS_futex
  | SYS_epoll_wait
  | SYS_epoll_pwait
  | SYS_poll
deriving DecidableEq, Repr

def FUTEX_PRIVATE_FLAG : BitVec 32 := 128

def FUTEX_CLOCK_REALTIME : BitVec 32 := 256

def FUTEX_CMD_MASK : BitVec 32 := ~~~(FUTEX_PRIVATE_FLAG ||| FUTEX_CLOCK_REALTIME)

def FUTEX_WAIT : BitVec 32 := 0

def FUTEX_WAIT_BITSET : BitVec 32 := 9

def FUTEX_WAIT_REQUEUE_PI : BitVec 32 := 11

def isFutexWaitOp (op : BitVec 32) : Bool :=
  op &&& FUTEX_CMD_MASK = FUTEX_WAIT || op &&& FUTEX_CMD_MASK = FUTEX_WAIT_BITSET ||
    op &&& FUTEX_CMD_MASK = FUTEX_WAIT_REQUEUE_PI

def getTimeoutArg : Syscall → Nat
  | .SYS_poll => 2
  | _ => 3

/-- A register as an `int`. -/
def ADDRINT.toInt32 (a : ADDRINT) : BitVec 32 := a.setWidth 32

/-- An `int64_t`. -/
def int64 (n : Int) : Int := n.bmod (2 ^ 64)

variable (z : Zinfo) (dom : ClockDomainInfo) (mem : ADDRINT → Timespec)

/-- The wait of a futex operation. -/
def futexWaitNsec (op : BitVec 32) (timeout : Timespec) : Int :=
  let waitNsec := int64 (timeout.tv_sec * 1000000000 + timeout.tv_nsec)
  if op &&& FUTEX_CLOCK_REALTIME ≠ 0 then
    let simNs := cyclesToNs z z.globPhaseCycles
    let offsetNs : Nat := (simNs + dom.realtimeOffsetNs) % 2 ^ 64
    if waitNsec > int64 offsetNs then int64 (waitNsec - offsetNs) else 0
  else waitNsec

/-- The phases of a wait: at least 2. -/
def timeoutPhases (waitNsec : Int) : Nat :=
  let waitCycles := ((int64 (waitNsec * z.freqMHz)).tdiv 1000 % 2 ^ 64).toNat
  let waitPhases := waitCycles / z.phaseLength
  if waitPhases < 2 then 2 else waitPhases

/-- The wait of a call and the timeout that replaces its own, or `none` when the call is left alone;
`fakeTimeout` is where the thread's fake timeout of 20 ms is. -/
def fakeTimeoutOf (fakeTimeout : ADDRINT) (syscall : Syscall) (args : Nat → ADDRINT) :
    Option (Int × ADDRINT) :=
  match syscall with
  | .SYS_futex =>
    let uaddr := args 0
    let op := (args 1).toInt32
    let timeout := args 3
    if uaddr ≠ 0 ∧ isFutexWaitOp op = true ∧ timeout ≠ 0 then
      let waitNsec := futexWaitNsec z dom op (mem timeout)
      if waitNsec ≤ 0 then none else some (waitNsec, fakeTimeout)
    else none
  | _ =>
    let timeout := (args (getTimeoutArg syscall)).toInt32.toInt
    if timeout ≤ 0 then none else some (int64 (timeout * 1000 * 1000), 20)

/-- `PrePatchTimeoutSyscall`: the arguments that the call is made with, and the phase to wake up at.
-/
def prePatchTimeoutSyscall (fakeTimeout : ADDRINT) (syscall : Syscall) (args : Nat → ADDRINT) :
    Option ((Nat → ADDRINT) × Nat) :=
  (fakeTimeoutOf z dom mem fakeTimeout syscall args).map fun (waitNsec, fake) =>
    (Function.update args (getTimeoutArg syscall) fake, z.numPhases + timeoutPhases z waitNsec)

/-! ### Deadlines -/

/-- The clock of an absolute timeout of a futex. -/
def futexClock (op : BitVec 32) : ClockId :=
  if op &&& FUTEX_CLOCK_REALTIME ≠ 0 then .CLOCK_REALTIME else .CLOCK_MONOTONIC

/-- The time that a call asks for, in ns, from what its clock reports: the timeout of `FUTEX_WAIT`
is relative, and that of the other futex operations absolute. -/
def remainingNs (syscall : Syscall) (args : Nat → ADDRINT) : Int :=
  match syscall with
  | .SYS_futex =>
    if (args 1).toInt32 &&& FUTEX_CMD_MASK = FUTEX_WAIT then (mem (args 3)).ns
    else (mem (args 3)).ns - clockAt z dom (futexClock (args 1).toInt32) 0
  | _ => (args (getTimeoutArg syscall)).toInt32.toInt * 1000000

/-- The time as it is read: that of a futex is absolute when it is on the realtime clock. -/
def readNs (syscall : Syscall) (args : Nat → ADDRINT) : Int :=
  match syscall with
  | .SYS_futex =>
    if (args 1).toInt32 &&& FUTEX_CLOCK_REALTIME ≠ 0 then
      (mem (args 3)).ns - clockAt z dom .CLOCK_REALTIME 0
    else (mem (args 3)).ns
  | _ => (args (getTimeoutArg syscall)).toInt32.toInt * 1000000

/-- The calls of the kernel that wait with a timeout. -/
def Timed (syscall : Syscall) (args : Nat → ADDRINT) : Prop :=
  match syscall with
  | .SYS_futex => args 0 ≠ 0 ∧ isFutexWaitOp (args 1).toInt32 = true ∧ args 3 ≠ 0 ∧
      (mem (args 3)).Valid
  | _ => 0 < (args (getTimeoutArg syscall)).toInt32.toInt

/-- The times and their product with the frequency are in the range of an `int64_t`. -/
def InRange (syscall : Syscall) (args : Nat → ADDRINT) : Prop :=
  readNs z dom mem syscall args * z.freqMHz < 2 ^ 63 ∧
    (syscall = .SYS_futex → (mem (args 3)).ns < 2 ^ 63 ∧
      ((args 1).toInt32 &&& FUTEX_CLOCK_REALTIME ≠ 0 → clockAt z dom .CLOCK_REALTIME 0 < 2 ^ 63))

/-- To wait `phases` phases is right for a time of `wait` ns times MHz: not less than the time, and
more than two phases only when one phase less would not be more than the time. -/
def Timely (phase wait : Int) (phases : Nat) : Prop :=
  wait ≤ phases * phase ∧ (phases ≤ 2 ∨ (phases - 1) * phase ≤ wait)

/-- The phase to wake up at is right for the time that the call asks for, with no overflow on the
way; a call is left alone when no time is left. -/
def MeetsTimeout (fakeTimeout : ADDRINT) (syscall : Syscall) (args : Nat → ADDRINT) : Prop :=
  InRange z dom mem syscall args ∧
    match prePatchTimeoutSyscall z dom mem fakeTimeout syscall args with
    | some (_, wakeupPhase) => ∃ phases, wakeupPhase = z.numPhases + phases ∧
        Timely (1000 * z.phaseLength) (remainingNs z dom mem syscall args * z.freqMHz) phases
    | none => remainingNs z dom mem syscall args ≤ 0

/-- For a time of `wait` that is read as `read`, both in ns times MHz: what is read in excess is
what exceeds its whole phases, or up to one phase more. -/
def Excess (phase read wait : Int) : Prop :=
  if read < 3 * phase then wait ≤ 2 * phase
  else read % phase ≤ read - wait ∧ read - wait ≤ read % phase + phase

/-- The condition on the time that a call asks for, and on how it is read. -/
def ReadRight (syscall : Syscall) (args : Nat → ADDRINT) : Prop :=
  let read := readNs z dom mem syscall args
  let wait := remainingNs z dom mem syscall args
  InRange z dom mem syscall args ∧
    if read ≤ 0 then wait ≤ 0 else Excess (1000 * z.phaseLength) (read * z.freqMHz)
      (wait * z.freqMHz)

variable {z dom mem} {fakeTimeout : ADDRINT} {syscall : Syscall} {args : Nat → ADDRINT}

theorem int64_eq {n : Int} (hle : -2 ^ 63 ≤ n) (hlt : n < 2 ^ 63) : int64 n = n :=
  Int.bmod_eq_of_le (by omega) (by omega)

/-- A time that is read right is waited for in phases of time that are whole, or in two phases. -/
theorem excess_self {phase wait : Int} (hphase : 0 < phase) (hwait : 0 ≤ wait) :
    Excess phase wait wait ↔ wait ≤ 2 * phase ∨ phase ∣ wait := by
  have hmod := Int.emod_nonneg wait hphase.ne'
  have hlt := Int.emod_lt_of_pos wait hphase
  unfold Excess
  rw [Int.sub_self, Int.dvd_iff_emod_eq_zero]
  split
  case isTrue hshort =>
    constructor
    · exact Or.inl
    · rintro (hle | hzero)
      · exact hle
      · have hdiv := Int.emod_add_mul_ediv wait phase
        rw [hzero, Int.zero_add] at hdiv
        have hle : wait / phase ≤ 2 := by
          rw [← Int.lt_add_one_iff, Int.ediv_lt_iff_lt_mul hphase]
          exact hshort
        have hmul := Int.mul_le_mul_of_nonneg_left hle hphase.le
        omega
  case isFalse hlong =>
    omega

/-- The phases of a wait that is in range. -/
theorem timeoutPhases_eq {w : Int} (hpos : 0 < w) (hlt : w * z.freqMHz < 2 ^ 63) :
    (timeoutPhases z w : Int) = max 2 (w * z.freqMHz / (1000 * z.phaseLength)) := by
  have hfreq : (0 : Int) < z.freqMHz := Int.natCast_pos.mpr z.freq_pos
  have hnonneg : 0 ≤ w * z.freqMHz := (Int.mul_pos hpos hfreq).le
  unfold timeoutPhases
  rw [int64_eq (by omega) hlt, Int.tdiv_eq_ediv_of_nonneg hnonneg]
  generalize w * z.freqMHz = product at hlt hnonneg ⊢
  have hcycles : ((product / 1000 % 2 ^ 64).toNat : Int) = product / 1000 := by omega
  dsimp only
  have hphases : (((product / 1000 % 2 ^ 64).toNat / z.phaseLength : Nat) : Int) =
      product / (1000 * z.phaseLength) := by
    rw [Int.natCast_ediv, hcycles, Int.ediv_ediv_of_nonneg (by decide)]
  split
  case isTrue hshort => omega
  case isFalse hlong => omega

/-- The phases of a wait are right exactly when the excess is. -/
theorem timely_iff {phase read wait : Int} {phases : Nat} (hphase : 0 < phase)
    (hphases : (phases : Int) = max 2 (read / phase)) :
    Timely phase wait phases ↔ Excess phase read wait := by
  have hdiv := Int.emod_add_mul_ediv read phase
  have hshort : read < 3 * phase ↔ read / phase < 3 := (Int.ediv_lt_iff_lt_mul hphase).symm
  unfold Timely Excess
  rw [hphases]
  split
  case isTrue h =>
    have hle := hshort.mp h
    rw [max_eq_left (by omega)]
    constructor
    · exact fun htimely => htimely.1
    · exact fun hwait => ⟨hwait, Or.inl (by omega)⟩
  case isFalse h =>
    have hge := mt hshort.mpr h
    rw [max_eq_right (by omega), Int.sub_mul, Int.one_mul, Int.mul_comm (read / phase)]
    constructor
    · rintro ⟨hwait, hshort' | hlate⟩
      · omega
      · exact ⟨by omega, by omega⟩
    · rintro ⟨hlow, hhigh⟩
      exact ⟨by omega, Or.inr (by omega)⟩

/-- The wait of a futex operation is the time as it is read. -/
theorem futexWaitNsec_eq {op : BitVec 32} {ts : Timespec} (hvalid : ts.Valid) (hlt : ts.ns < 2 ^ 63)
    (hclock : op &&& FUTEX_CLOCK_REALTIME ≠ 0 → clockAt z dom .CLOCK_REALTIME 0 < 2 ^ 63) :
    futexWaitNsec z dom op ts = if op &&& FUTEX_CLOCK_REALTIME ≠ 0 then
      max 0 (ts.ns - clockAt z dom .CLOCK_REALTIME 0) else ts.ns := by
  have hnonneg := hvalid.nonneg
  have hns : ts.tv_sec * 1000000000 + ts.tv_nsec = ts.ns := rfl
  unfold futexWaitNsec
  dsimp only
  rw [hns, int64_eq (by omega) hlt]
  split
  case isFalse => rfl
  case isTrue hreal =>
    have hoffset : (((cyclesToNs z z.globPhaseCycles + dom.realtimeOffsetNs) % 2 ^ 64 : Nat) :
      Int) =
        clockAt z dom .CLOCK_REALTIME 0 := by
      rw [clockAt_zero, Nat.add_comm, clockOffset]
    have hclock' := hclock hreal
    have hzero : 0 ≤ clockAt z dom .CLOCK_REALTIME 0 := hoffset ▸ Int.natCast_nonneg _
    rw [hoffset, int64_eq (by omega) hclock', int64_eq (by omega) (by omega)]
    split
    case isTrue hgt => rw [max_eq_right (by omega)]
    case isFalse hle => rw [max_eq_left (by omega)]

/-- A timed call in range is left alone when no time is read, and otherwise waits for the time that
is read. -/
theorem fakeTimeoutOf_eq (htimed : Timed mem syscall args) (hrange :
    InRange z dom mem syscall args) :
    (fakeTimeoutOf z dom mem fakeTimeout syscall args).map Prod.fst =
      if readNs z dom mem syscall args ≤ 0 then none else some (readNs z dom mem syscall args) := by
  obtain ⟨hproduct, hfutex⟩ := hrange
  have hpoll : ∀ timeout : BitVec 32, 0 < timeout.toInt →
      ((if timeout.toInt ≤ 0 then none else some (int64 (timeout.toInt * 1000 * 1000),
        (20 : ADDRINT))) :
        Option (Int × ADDRINT)).map Prod.fst =
      if timeout.toInt * 1000000 ≤ 0 then none else some (timeout.toInt * 1000000) := by
    intro timeout hpos
    have hlt := timeout.toInt_lt
    rw [if_neg (by omega), if_neg (by omega), int64_eq (by omega) (by omega), Option.map_some]
    congr 1
    omega
  cases syscall
  case SYS_futex =>
    obtain ⟨huaddr, hop, htimeout, hvalid⟩ := htimed
    obtain ⟨hlt, hclock⟩ := hfutex rfl
    unfold fakeTimeoutOf readNs
    dsimp only
    rw [if_pos ⟨huaddr, hop, htimeout⟩, futexWaitNsec_eq hvalid hlt hclock]
    split
    case isTrue =>
      obtain hgt | hle := lt_or_ge 0 ((mem (args 3)).ns - clockAt z dom .CLOCK_REALTIME 0)
      · rw [max_eq_right hgt.le, if_neg (by omega), if_neg (by omega), Option.map_some]
      · rw [max_eq_left hle, if_pos (Int.le_refl 0), if_pos hle, Option.map_none]
    case isFalse =>
      split
      case isTrue => rfl
      case isFalse => rfl
  case SYS_epoll_wait => exact hpoll _ htimed
  case SYS_epoll_pwait => exact hpoll _ htimed
  case SYS_poll => exact hpoll _ htimed

/-- The phase that a timed call waits for is right exactly when its time is read right. -/
theorem timeout_iff (htimed : Timed mem syscall args) :
    MeetsTimeout z dom mem fakeTimeout syscall args ↔ ReadRight z dom mem syscall args := by
  unfold MeetsTimeout ReadRight
  refine and_congr_right fun hrange => ?_
  have hfake := @fakeTimeoutOf_eq z dom mem fakeTimeout syscall args htimed hrange
  unfold prePatchTimeoutSyscall
  split at hfake
  case isTrue hread =>
    obtain hnone := Option.map_eq_none_iff.mp hfake
    rw [hnone, if_pos hread]
    rfl
  case isFalse hread =>
    obtain ⟨⟨w, fake⟩, hsome, rfl⟩ := Option.map_eq_some_iff.mp hfake
    have hphase : (0 : Int) < 1000 * z.phaseLength := by
      have hpos := z.phase_pos
      omega
    rw [hsome, if_neg hread,
      ← timely_iff hphase (timeoutPhases_eq (Int.not_le.mp hread) hrange.1)]
    constructor
    · rintro ⟨phases, heq, htimely⟩
      rw [← Nat.add_left_cancel heq] at htimely
      exact htimely
    · exact fun htimely => ⟨_, rfl, htimely⟩

/-- A wait on a bitset until 100 us from now on the monotonic clock, which reports 1 s, waits for
1.0001 s. -/
theorem bitset_wait_long :
    Timed (fun _ => ⟨1, 100000⟩) .SYS_futex
      (fun n => if n = 1 then FUTEX_WAIT_BITSET.setWidth 64 else 4096) ∧
    ¬ MeetsTimeout tenMicros ⟨0, 1000000000, 0⟩ (fun _ => ⟨1, 100000⟩) 8192 .SYS_futex
      (fun n => if n = 1 then FUTEX_WAIT_BITSET.setWidth 64 else 4096) := by
  refine ⟨by unfold Timed; decide +kernel, fun ⟨_, hmeets⟩ => ?_⟩
  have hfake : fakeTimeoutOf tenMicros ⟨0, 1000000000, 0⟩ (fun _ => ⟨1, 100000⟩) 8192 .SYS_futex
      (fun n => if n = 1 then FUTEX_WAIT_BITSET.setWidth 64 else 4096) =
      some (1000100000, 8192) := by decide +kernel
  unfold prePatchTimeoutSyscall at hmeets
  rw [hfake] at hmeets
  obtain ⟨phases, hphases, -, hlate⟩ := hmeets
  obtain rfl : 100010 = phases := by
    have heval : tenMicros.numPhases + timeoutPhases tenMicros 1000100000 = 0 + 100010 := by
      decide +kernel
    exact Nat.add_left_cancel (heval.symm.trans hphases)
  exact absurd hlate (by decide +kernel)

theorem timeout_iff_wait : MeetsTimeout tenMicros ⟨0, 0, 0⟩ (fun _ => ⟨0, 40000⟩) 8192 .SYS_futex
      (fun n => if n = 1 then FUTEX_WAIT.setWidth 64 else 4096) ↔
    ReadRight tenMicros ⟨0, 0, 0⟩ (fun _ => ⟨0, 40000⟩) .SYS_futex
      (fun n => if n = 1 then FUTEX_WAIT.setWidth 64 else 4096) :=
  timeout_iff (by unfold Timed; decide +kernel)

end Doppelganger.Virt
