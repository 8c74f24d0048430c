import Doppelganger.Lib.Run
import Doppelganger.Sched.Scheduler
import Doppelganger.Virt.Timeout

/-! `PatchTimeoutSyscall` of `virt/timeout.cpp`: a thread makes a call with a timeout of 20 ms,
again and again, until the call returns something else, the thread is woken up at its phase, or
fast-forward begins. -/

namespace Doppelganger.Virt

open Scheduling (ThreadState)

/-- The pointers of a thread's instrumentation: those of its core, and those of a thread that is to
join or to retry a call. -/
inductive FPtrs
  | core
  | FPTR_JOIN
  | FPTR_RETRY
deriving DecidableEq, Repr

/-- What `PatchTimeoutSyscall` keeps for the end of a call. -/
structure PostPatch where
  syscall : Syscall
  prevIp : ADDRINT
  timeoutArgVal : ADDRINT
deriving DecidableEq, Repr

/-- Where a thread is: about to make the call, in the kernel, or back from the call. -/
inductive CallPlace
  | guest
  | inSyscall
  | returned
deriving DecidableEq, Repr

/-- A thread that makes a call, and the state around it; `phases` are those since the start. -/
structure Caller where
  syscall : Syscall
  args : Nat → ADDRINT
  ip : ADDRINT
  rax : Int
  inFakeTimeoutMode : Bool
  state : ThreadState
  markedForSleep : Bool
  wakeupPhase : Nat
  fPtrs : FPtrs
  postPatch : Option PostPatch
  place : CallPlace
  phases : Nat
  inFastForward : Bool

/-- What stays the same: the clocks at the start, the guest's memory, where the thread's fake
timeout is, and whether system calls block. -/
structure Setting where
  zinfo : Zinfo
  dom : ClockDomainInfo
  mem : ADDRINT → Timespec
  fakeTimeout : ADDRINT
  blockingSyscalls : Bool

def ETIMEDOUT : Int := 110

/-- The number of a call. -/
def Syscall.number : Syscall → Int
  | .SYS_poll => 7
  | .SYS_futex => 202
  | .SYS_epoll_wait => 232
  | .SYS_epoll_pwait => 281

variable (setting : Setting)

/-- `numPhases` of a caller. -/
def Caller.numPhases (c : Caller) : Nat := (setting.zinfo.later c.phases).numPhases

/-- `leave` of a running thread: one that is marked goes to sleep. -/
def leave (c : Caller) : Option Caller :=
  if c.state = .RUNNING then
    if c.markedForSleep then some { c with state := .SLEEPING, markedForSleep := false }
    else some { c with state := .OUT }
  else none

/-- `notifySleepEnd`. -/
def notifySleepEnd (c : Caller) : Option Caller :=
  if c.markedForSleep then none
  else if c.state = .SLEEPING ∨ c.state = .BLOCKED then some { c with state := .BLOCKED }
  else none

/-- `PatchTimeoutSyscall` before the call; `none` when it does not patch it, or an assertion fails.
The timeout that is kept is read from the arguments after `PrePatchTimeoutSyscall`. -/
def patchTimeoutSyscall (c : Caller) : Option Caller :=
  if c.inFastForward then none
  else match prePatchTimeoutSyscall (setting.zinfo.later c.phases) setting.dom setting.mem
      setting.fakeTimeout c.syscall c.args with
    | none => none
    | some (args, wakeupPhase) =>
      if c.inFakeTimeoutMode ∨ c.markedForSleep then none
      else some { c with
        args, wakeupPhase
        markedForSleep := true
        inFakeTimeoutMode := true
        postPatch := some ⟨c.syscall, c.ip, args (getTimeoutArg c.syscall)⟩ }

/-- `SyscallEnter`: the instruction at `ip` makes the call. -/
def syscallEnter (c : Caller) : Option Caller :=
  if c.place = .guest then
    if c.fPtrs = .FPTR_RETRY then some { c with place := .inSyscall }
    else (patchTimeoutSyscall setting c).bind fun patched =>
      let c : Caller := { patched with place := .inSyscall }
      if c.fPtrs ≠ .FPTR_JOIN ∧ setting.blockingSyscalls = false then
        (leave c).map fun c => { c with fPtrs := .FPTR_JOIN }
      else some c
  else none

/-- The result of a call says that its timeout is over. -/
def TimedOut (syscall : Syscall) (res : Int) : Prop :=
  if syscall = .SYS_futex then res = -ETIMEDOUT else res = 0

instance (syscall : Syscall) (res : Int) : Decidable (TimedOut syscall res) :=
  inferInstanceAs (Decidable (if syscall = .SYS_futex then res = -ETIMEDOUT else res = 0))

/-- `PostPatchTimeoutSyscall`, and whether to retry. -/
def postPatchTimeoutSyscall (c : Caller) (patch : PostPatch) : Option (Caller × Bool) :=
  if c.inFakeTimeoutMode then
    let isSleeping := decide (c.state = .SLEEPING)
    let decided : Option (Caller × Bool) :=
      if TimedOut patch.syscall c.rax then
        if isSleeping ∧ c.inFastForward then (notifySleepEnd c).map (·, false)
        else some (c, isSleeping)
      else if isSleeping then (notifySleepEnd c).map (·, false)
      else some (c, false)
    decided.map fun (c, retrySyscall) =>
      if retrySyscall then ({ c with ip := patch.prevIp, rax := patch.syscall.number }, true)
      else ({ c with
        args := Function.update c.args (getTimeoutArg patch.syscall) patch.timeoutArgVal
        inFakeTimeoutMode := false }, false)
  else none

/-- `SyscallExit`, of a call with the result `res`; the instruction has two bytes. -/
def syscallExit (c : Caller) (res : Int) : Option Caller :=
  match c.place, c.postPatch with
  | .inSyscall, some patch =>
    (postPatchTimeoutSyscall { c with rax := res, ip := c.ip + 2 } patch).map fun (c,
      retrySyscall) =>
      if retrySyscall then { c with fPtrs := .FPTR_RETRY, place := .guest }
      else { c with
        fPtrs := if setting.blockingSyscalls then .core else .FPTR_JOIN
        place := .returned }
  | _, _ => none

/-- What happens to a caller, or around it. -/
inductive CallOp
  | syscallEnter
  | syscallExit (res : Int)
  /-- The watchdog makes the thread leave. -/
  | leave
  /-- A phase ends, which may wake up the thread. -/
  | endPhase (woken : Bool)
  | fastForward (on : Bool)
deriving DecidableEq, Repr

/-- A thread that is woken up has a phase to wake up at that has come. -/
def callStep (op : CallOp) (c : Caller) : Option Caller :=
  match op with
  | .syscallEnter => syscallEnter setting c
  | .syscallExit res => syscallExit setting c res
  | .leave => leave c
  | .endPhase woken =>
    let c := { c with phases := c.phases + 1 }
    if woken then
      if c.state = .SLEEPING ∧ c.wakeupPhase ≤ c.numPhases setting then
        some { c with state := .BLOCKED }
      else none
    else some c
  | .fastForward on => some { c with inFastForward := on }

/-! ### The call from its start to its end -/

/-- The timeout argument of a call while it is patched. -/
def fakeArg : Syscall → ADDRINT
  | .SYS_futex => setting.fakeTimeout
  | _ => 20

/-- The call that the guest made in the state `before` has returned in the state `c`; `entered` is
the state after its first entry. -/
structure Returned (before entered c : Caller) : Prop where
  args : c.args = before.args
  mode : c.inFakeTimeoutMode = false
  awake : c.state ≠ .SLEEPING
  deadline : TimedOut before.syscall c.rax →
    entered.wakeupPhase ≤ c.numPhases setting ∨ c.inFastForward = true

/-- The call that the guest made in the state `before` goes on in the state `c`. -/
structure InCall (before entered c : Caller) : Prop where
  syscall : c.syscall = before.syscall
  postPatch : c.postPatch = some ⟨before.syscall, before.ip, fakeArg setting before.syscall⟩
  args : c.args = Function.update before.args (getTimeoutArg before.syscall)
    (fakeArg setting before.syscall)
  mode : c.inFakeTimeoutMode = true
  ip : c.ip = before.ip
  rax : c.rax = before.syscall.number
  wakeup : c.wakeupPhase = entered.wakeupPhase
  retry : c.place = .guest → c.fPtrs = .FPTR_RETRY
  asleep : c.markedForSleep = true ∨ c.state = .SLEEPING ∨ c.wakeupPhase ≤ c.numPhases setting

variable {setting} {before entered c c' : Caller} {op : CallOp} {res : Int}

/-- The value that is written is the one of the kind of call. -/
theorem fakeTimeoutOf_snd {z : Zinfo} {syscall : Syscall} {args : Nat → ADDRINT} {w : Int}
    {fake : ADDRINT} (h : fakeTimeoutOf z setting.dom setting.mem setting.fakeTimeout syscall args =
      some (w, fake)) : fake = fakeArg setting syscall := by
  have hpoll : ∀ timeout : BitVec 32, (if timeout.toInt ≤ 0 then none
      else some (int64 (timeout.toInt * 1000 * 1000), (20 : ADDRINT))) = some (w, fake) → fake =
        20 := by
    intro timeout h
    rw [Option.ite_none_left_eq_some] at h
    exact (Prod.mk.inj (Option.some.inj h.2)).2.symm
  cases syscall
  case SYS_futex =>
    unfold fakeTimeoutOf at h
    dsimp only at h
    rw [Option.ite_none_right_eq_some, Option.ite_none_left_eq_some] at h
    exact (Prod.mk.inj (Option.some.inj h.2.2)).2.symm
  case SYS_epoll_wait => exact hpoll _ h
  case SYS_epoll_pwait => exact hpoll _ h
  case SYS_poll => exact hpoll _ h

/-- What `leave` does to a caller. -/
theorem leave_cases (h : leave c = some c') : c.state = .RUNNING ∧
    (c.markedForSleep = true ∧ c' = { c with state := .SLEEPING, markedForSleep := false } ∨
      c.markedForSleep = false ∧ c' = { c with state := .OUT }) := by
  unfold leave at h
  split at h
  case isTrue hrunning =>
    refine ⟨hrunning, ?_⟩
    split at h
    case isTrue hmarked => exact Or.inl ⟨hmarked, (Option.some.inj h).symm⟩
    case isFalse hmarked => exact Or.inr ⟨Bool.not_eq_true _ ▸ hmarked, (Option.some.inj h).symm⟩
  case isFalse => exact absurd h.symm (Option.some_ne_none _)

/-- What `PatchTimeoutSyscall` does to a caller. -/
theorem patchTimeoutSyscall_cases (h : patchTimeoutSyscall setting c = some c') :
    ∃ wakeupPhase, c' = { c with
      args := Function.update c.args (getTimeoutArg c.syscall) (fakeArg setting c.syscall)
      wakeupPhase
      markedForSleep := true
      inFakeTimeoutMode := true
      postPatch := some ⟨c.syscall, c.ip, fakeArg setting c.syscall⟩ } := by
  unfold patchTimeoutSyscall at h
  rw [Option.ite_none_left_eq_some] at h
  obtain ⟨-, h⟩ := h
  unfold prePatchTimeoutSyscall at h
  cases hfake : fakeTimeoutOf (setting.zinfo.later c.phases) setting.dom setting.mem
      setting.fakeTimeout c.syscall c.args with
  | none =>
    rw [hfake] at h
    exact absurd h.symm (Option.some_ne_none _)
  | some found =>
    obtain ⟨w, fake⟩ := found
    rw [hfake] at h
    dsimp only [Option.map_some] at h
    rw [Option.ite_none_left_eq_some] at h
    obtain ⟨-, h⟩ := h
    obtain rfl := fakeTimeoutOf_snd hfake
    rw [Function.update_self] at h
    exact ⟨_, (Option.some.inj h).symm⟩

/-- The first entry starts a call. -/
theorem inCall_of_enter (hfirst : before.fPtrs ≠ .FPTR_RETRY)
    (hrax : before.rax = before.syscall.number) (h : syscallEnter setting before = some entered) :
    InCall setting before entered entered := by
  unfold syscallEnter at h
  rw [Option.ite_none_right_eq_some, if_neg hfirst] at h
  obtain ⟨patched, hpatch, h⟩ := Option.bind_eq_some_iff.mp h.2
  obtain ⟨wakeupPhase, rfl⟩ := patchTimeoutSyscall_cases hpatch
  dsimp only at h
  split at h
  case isTrue =>
    obtain ⟨left, hleave, rfl⟩ := Option.map_eq_some_iff.mp h
    obtain ⟨-, ⟨-, rfl⟩ | ⟨hmarked, -⟩⟩ := leave_cases hleave
    · exact ⟨rfl, rfl, rfl, rfl, rfl, hrax, rfl, fun hplace => CallPlace.noConfusion hplace,
        Or.inr (Or.inl rfl)⟩
    · exact Bool.noConfusion hmarked
  case isFalse =>
    obtain rfl := Option.some.inj h
    exact ⟨rfl, rfl, rfl, rfl, rfl, hrax, rfl, fun hplace => CallPlace.noConfusion hplace,
      Or.inl rfl⟩

/-- `notifySleepEnd` leaves a sleeper blocked. -/
theorem notifySleepEnd_cases (h : notifySleepEnd c = some c') :
    c' = { c with state := .BLOCKED } := by
  unfold notifySleepEnd at h
  rw [Option.ite_none_left_eq_some, Option.ite_none_right_eq_some] at h
  exact (Option.some.inj h.2.2).symm

/-- A call ends with a retry by a thread that is still asleep, or it returns. -/
theorem postPatch_cases {patch : PostPatch} {retrySyscall : Bool}
    (h : postPatchTimeoutSyscall c patch = some (c', retrySyscall)) :
    (retrySyscall = true ∧ c.state = .SLEEPING ∧
      c' = { c with ip := patch.prevIp, rax := patch.syscall.number }) ∨
    (retrySyscall = false ∧
      (TimedOut patch.syscall c.rax → c.state = .SLEEPING → c.inFastForward = true) ∧
      ∃ state, state ≠ .SLEEPING ∧ c' = { c with
        state
        args := Function.update c.args (getTimeoutArg patch.syscall) patch.timeoutArgVal
        inFakeTimeoutMode := false }) := by
  unfold postPatchTimeoutSyscall at h
  rw [Option.ite_none_right_eq_some] at h
  obtain ⟨⟨decided, retry⟩, hdecided, heq⟩ := Option.map_eq_some_iff.mp h.2
  have hended : ∀ {ended}, (notifySleepEnd c).map (·, false) = some (ended, retry) →
      retry = false ∧ ended = { c with state := .BLOCKED } := fun hend => by
    obtain ⟨c1, hnotify, hpair⟩ := Option.map_eq_some_iff.mp hend
    obtain ⟨rfl, rfl⟩ := Prod.mk.inj hpair
    exact ⟨rfl, notifySleepEnd_cases hnotify⟩
  split at hdecided
  case isTrue htimed =>
    split at hdecided
    case isTrue hff =>
      obtain ⟨rfl, rfl⟩ := hended hdecided
      obtain ⟨rfl, rfl⟩ := Prod.mk.inj heq
      exact Or.inr ⟨rfl, fun _ _ => hff.2, .BLOCKED, by decide, rfl⟩
    case isFalse hff =>
      obtain ⟨rfl, rfl⟩ := Prod.mk.inj (Option.some.inj hdecided)
      by_cases hasleep : c.state = .SLEEPING
      · rw [decide_eq_true hasleep] at heq
        obtain ⟨rfl, rfl⟩ := Prod.mk.inj heq
        exact Or.inl ⟨rfl, hasleep, rfl⟩
      · rw [decide_eq_false hasleep] at heq
        obtain ⟨rfl, rfl⟩ := Prod.mk.inj heq
        exact Or.inr ⟨rfl, fun _ h => absurd h hasleep, c.state, hasleep, rfl⟩
  case isFalse htimed =>
    split at hdecided
    case isTrue hasleep =>
      obtain ⟨rfl, rfl⟩ := hended hdecided
      obtain ⟨rfl, rfl⟩ := Prod.mk.inj heq
      exact Or.inr ⟨rfl, fun h => absurd h htimed, .BLOCKED, by decide, rfl⟩
    case isFalse hasleep =>
      obtain ⟨rfl, rfl⟩ := Prod.mk.inj (Option.some.inj hdecided)
      obtain ⟨rfl, rfl⟩ := Prod.mk.inj heq
      exact Or.inr ⟨rfl, fun h => absurd h htimed, c.state,
        fun h => hasleep (decide_eq_true h), rfl⟩

/-- The end of a system call in a call that goes on: the thread is to make the same call again, or
it returns to the guest. -/
theorem InCall.exit (h : InCall setting before entered c)
    (hexit : syscallExit setting c res = some c') :
    (c'.place = .guest ∧ InCall setting before entered c') ∨
    (c'.place = .returned ∧ c'.inFakeTimeoutMode = false ∧ c'.state ≠ .SLEEPING ∧ c'.rax = res ∧
      c'.args = Function.update before.args (getTimeoutArg before.syscall)
        (fakeArg setting before.syscall) ∧
      c'.numPhases setting = c.numPhases setting ∧ c'.inFastForward = c.inFastForward ∧
      (TimedOut before.syscall res → c.state = .SLEEPING → c.inFastForward = true)) := by
  unfold syscallExit at hexit
  rw [h.postPatch] at hexit
  split at hexit
  case h_2 => exact absurd hexit.symm (Option.some_ne_none _)
  case h_1 patch hplace hpatch =>
    obtain rfl := Option.some.inj hpatch
    obtain ⟨⟨c1, retry⟩, hpost, rfl⟩ := Option.map_eq_some_iff.mp hexit
    obtain ⟨rfl, hasleep, rfl⟩ | ⟨rfl, hff, state, hawake, rfl⟩ := postPatch_cases hpost
    · exact Or.inl ⟨rfl, { h with
        postPatch := rfl
        ip := rfl
        rax := rfl
        retry := fun _ => rfl }⟩
    · refine Or.inr ⟨rfl, rfl, hawake, rfl, ?_, rfl, rfl, hff⟩
      change Function.update c.args _ _ = _
      rw [h.args, Function.update_idem]

/-- A call goes on until it returns. -/
theorem InCall.step (h : InCall setting before entered c)
    (hstep : callStep setting op c = some c') :
    c'.place = .returned ∨ InCall setting before entered c' := by
  cases op with
  | syscallEnter =>
    have henter : syscallEnter setting c = some c' := hstep
    unfold syscallEnter at henter
    rw [Option.ite_none_right_eq_some] at henter
    obtain ⟨hplace, henter⟩ := henter
    rw [if_pos (h.retry hplace)] at henter
    obtain rfl := Option.some.inj henter
    exact Or.inr { h with retry := fun hguest => CallPlace.noConfusion hguest }
  | syscallExit res =>
    obtain ⟨-, hin⟩ | ⟨hplace, -⟩ := h.exit hstep
    · exact Or.inr hin
    · exact Or.inl hplace
  | leave =>
    obtain ⟨hrunning, ⟨-, rfl⟩ | ⟨hmarked, rfl⟩⟩ := leave_cases hstep
    · exact Or.inr { h with asleep := Or.inr (Or.inl rfl) }
    · refine Or.inr { h with asleep := Or.inr (Or.inr ?_) }
      obtain hmarked' | hasleep | hreached := h.asleep
      · rw [hmarked] at hmarked'
        exact Bool.noConfusion hmarked'
      · rw [hrunning] at hasleep
        exact ThreadState.noConfusion hasleep
      · exact hreached
  | endPhase woken =>
    have hlater : c.numPhases setting ≤ Caller.numPhases setting { c with phases :=
      c.phases + 1 } :=
      Nat.add_le_add_left (Nat.le_succ _) _
    unfold callStep at hstep
    dsimp only at hstep
    split at hstep
    case isTrue =>
      rw [Option.ite_none_right_eq_some] at hstep
      obtain ⟨⟨-, hreached⟩, hstep⟩ := hstep
      obtain rfl := Option.some.inj hstep
      exact Or.inr { h with asleep := Or.inr (Or.inr hreached) }
    case isFalse =>
      obtain rfl := Option.some.inj hstep
      exact Or.inr { h with asleep := h.asleep.imp_right (Or.imp_right hlater.trans') }
  | fastForward on =>
    obtain rfl := Option.some.inj hstep
    exact Or.inr { h with }

/-- A call that returned does not go on. -/
theorem returned_step (h : c.place = .returned) (hstep : callStep setting op c = some c') :
    c'.place = .returned := by
  cases op with
  | syscallEnter =>
    have henter : syscallEnter setting c = some c' := hstep
    unfold syscallEnter at henter
    rw [Option.ite_none_right_eq_some, h] at henter
    exact CallPlace.noConfusion henter.1
  | syscallExit res =>
    have hexit : syscallExit setting c res = some c' := hstep
    unfold syscallExit at hexit
    rw [h] at hexit
    exact absurd hexit.symm (Option.some_ne_none _)
  | leave =>
    obtain ⟨-, ⟨-, rfl⟩ | ⟨-, rfl⟩⟩ := leave_cases hstep
    · exact h
    · exact h
  | endPhase woken =>
    unfold callStep at hstep
    dsimp only at hstep
    split at hstep
    case isTrue =>
      rw [Option.ite_none_right_eq_some] at hstep
      obtain rfl := Option.some.inj hstep.2
      exact h
    case isFalse =>
      obtain rfl := Option.some.inj hstep
      exact h
  | fastForward on =>
    obtain rfl := Option.some.inj hstep
    exact h

/-- After any number of retries, a call has returned or goes on. -/
theorem InCall.run {ops : List CallOp} (h : InCall setting before entered entered)
    (hrun : Lib.run (callStep setting) ops entered = some c) :
    c.place = .returned ∨ InCall setting before entered c := by
  have hkeeps : ∀ (op : CallOp) (s s' : Caller),
      (s.place = .returned ∨ InCall setting before entered s) → True →
      callStep setting op s = some s' → s'.place = .returned ∨ InCall setting before entered s' :=
        by
    rintro op s s' (hreturned | hin) - hstep
    · exact Or.inl (returned_step hreturned hstep)
    · exact hin.step hstep
  exact @Lib.run_preserves _ _ _ (fun _ _ => True)
    (fun s => s.place = .returned ∨ InCall setting before entered s) _ _ _ hkeeps (Or.inr h)
    (Lib.along_of_forall (fun _ _ => trivial) _ _) hrun

/-- A call with a timeout returns as it should exactly when the guest's timeout was the value that
the patch writes, and, when the timeout is over, the thread did sleep, or its phase or fast-forward
has come. -/
theorem returned_iff {ops : List CallOp} (hfirst : before.fPtrs ≠ .FPTR_RETRY)
    (hrax : before.rax = before.syscall.number) (henter : syscallEnter setting before =
      some entered)
    (hrun : Lib.run (callStep setting) ops entered = some c)
    (hexit : syscallExit setting c res = some c') (hreturned : c'.place = .returned) :
    Returned setting before entered c' ↔
      before.args (getTimeoutArg before.syscall) = fakeArg setting before.syscall ∧
      (TimedOut before.syscall res → c.markedForSleep = false ∨
        entered.wakeupPhase ≤ c.numPhases setting ∨ c.inFastForward = true) := by
  have hin : InCall setting before entered c := by
    obtain hplace | hin := (inCall_of_enter hfirst hrax henter).run hrun
    · unfold syscallExit at hexit
      rw [hplace] at hexit
      exact absurd hexit.symm (Option.some_ne_none _)
    · exact hin
  obtain ⟨hguest, -⟩ | ⟨-, hmode, hawake, hres, hargs, hphases, hff, hasleep⟩ := hin.exit hexit
  · rw [hguest] at hreturned
    exact CallPlace.noConfusion hreturned
  · constructor
    · intro h
      refine ⟨?_, fun htimed => Or.inr ?_⟩
      · rw [← h.args, hargs, Function.update_self]
      · rw [← hphases, ← hff]
        exact h.deadline (hres.symm ▸ htimed)
    · rintro ⟨harg, htime⟩
      refine ⟨?_, hmode, hawake, fun htimed => ?_⟩
      · rw [hargs, ← harg, Function.update_eq_self]
      · rw [hres] at htimed
        rw [hphases, hff]
        obtain hunmarked | hpassed := htime htimed
        · obtain hmarked | hsleeping | hreached := hin.asleep
          · rw [hunmarked] at hmarked
            exact Bool.noConfusion hmarked
          · exact Or.inr (hasleep htimed hsleeping)
          · exact Or.inl (hin.wakeup ▸ hreached)
        · exact hpassed

/-- A thread that polls with a timeout of `timeout` ms. -/
def poller (timeout : ADDRINT) : Caller where
  syscall := .SYS_poll
  args := fun _ => timeout
  ip := 4194304
  rax := 7
  inFakeTimeoutMode := false
  state := .RUNNING
  markedForSleep := false
  wakeupPhase := 0
  fPtrs := .core
  postPatch := none
  place := .guest
  phases := 0
  inFastForward := false

def pollSetting : Setting where
  zinfo := tenMicros
  dom := ⟨0, 0, 0⟩
  mem := fun _ => ⟨0, 0⟩
  fakeTimeout := 8192
  blockingSyscalls := false

/-- A poll with a timeout of 100 ms that finds something after a retry returns with one of 20 ms. -/
theorem poll_timeout_lost : ∃ c,
    Lib.run (callStep pollSetting)
      [.syscallEnter, .endPhase false, .syscallExit 0, .syscallEnter, .syscallExit 1] (poller 100) =
        some c ∧
    c.place = .returned ∧ c.args 2 ≠ (poller 100).args 2 := by
  refine ⟨_, rfl, rfl, ?_⟩
  decide +kernel

theorem returned_iff_poll : ∃ entered c c', syscallEnter pollSetting (poller 20) = some entered ∧
    Lib.run (callStep pollSetting) [.endPhase false, .syscallExit 0, .syscallEnter] entered =
      some c ∧
    syscallExit pollSetting c 1 = some c' ∧
    (Returned pollSetting (poller 20) entered c' ↔
      (poller 20).args (getTimeoutArg (poller 20).syscall) =
        fakeArg pollSetting (poller 20).syscall ∧
      (TimedOut (poller 20).syscall 1 → c.markedForSleep = false ∨
        entered.wakeupPhase ≤ c.numPhases pollSetting ∨ c.inFastForward = true)) := by
  refine ⟨_, _, _, rfl, rfl, rfl, ?_⟩
  exact @returned_iff pollSetting (poller 20) _ _ _ 1
    [.endPhase false, .syscallExit 0, .syscallEnter] (by decide) rfl rfl rfl rfl rfl

end Doppelganger.Virt
