import Doppelganger.Lib.Run
import Doppelganger.Lib.Tally
import Mathlib.Logic.Function.Basic
import Mathlib.Tactic.Common

/-! Matching of futex wake-ups, of `scheduler.cpp`: a wake call adds its allowance when it starts,
gives back what it did not use when its thread joins, and the rest when as many woken waiters have
joined or two seconds have passed.  An operation is `none` when it fails an assertion. -/

namespace Doppelganger.Futex

open Lib

inductive FutexJoinAction where
  | none
  | wait
  | wake
deriving DecidableEq, Repr

structure FutexJoinInfo where
  action : FutexJoinAction
  maxWakes : UInt32
  wokenUp : UInt32
deriving DecidableEq, Repr

/-- Where a thread is: simulated or in a call that wakes nobody, in a wake call with its argument,
returned from a futex call and not joined yet, or in the loop of `futexWakeJoin`. -/
inductive Place where
  | joined
  | inWake (val : Int32)
  | returned
  | matching
deriving DecidableEq

def Place.isInWake : Place → Bool
  | .inWake _ => true
  | _ => false

structure Scheduler where
  maxAllowedFutexWakeups : UInt32
  unmatchedFutexWakeups : UInt32
  futexJoin : Nat → FutexJoinInfo
  place : Nat → Place

def init : Scheduler := ⟨0, 0, fun _ => ⟨.none, 0, 0⟩, fun _ => .joined⟩

namespace Scheduler

def setJoin (tid : Nat) (info : FutexJoinInfo) (s : Scheduler) : Scheduler :=
  { s with futexJoin := Function.update s.futexJoin tid info }

def setPlace (tid : Nat) (place : Place) (s : Scheduler) : Scheduler :=
  { s with place := Function.update s.place tid place }

/-- The cap on the allowance of one call, 16M wakes. -/
def maxWakesCap : UInt32 := 16777216

/-- The allowance of a call with argument `val`. -/
def cappedWakes (val : Int32) : UInt32 := min val.toUInt32 maxWakesCap

def notifyFutexWakeStart (tid : Nat) (val : Int32) (s : Scheduler) : Option Scheduler :=
  let info := s.futexJoin tid
  if info.action = .none then
    let maxWakes := cappedWakes val
    some ({ s with maxAllowedFutexWakeups := s.maxAllowedFutexWakeups + maxWakes }.setJoin tid
      { info with maxWakes := maxWakes })
  else Option.none

def notifyFutexWakeEnd (tid : Nat) (wokenUp : UInt32) (s : Scheduler) : Scheduler :=
  s.setJoin tid { s.futexJoin tid with action := .wake, wokenUp := wokenUp }

def notifyFutexWaitWoken (tid : Nat) (s : Scheduler) : Scheduler :=
  s.setJoin tid ⟨.wait, 0, 0⟩

/-- The number that `PostPatchFutex` passes on, `std::min(res, fi.val)`. -/
def wokenUp (res val : Int32) : UInt32 := (if val < res then val else res).toUInt32

/-- `PostPatchFutex` after a wake call: an error is not passed on. -/
def wakeReturns (tid : Nat) (res val : Int32) (s : Scheduler) : Scheduler :=
  if res ≥ 0 then s.notifyFutexWakeEnd tid (wokenUp res val) else s

def futexWaitJoin (s : Scheduler) : Scheduler :=
  if s.unmatchedFutexWakeups ≥ s.maxAllowedFutexWakeups then s
  else { s with unmatchedFutexWakeups := s.unmatchedFutexWakeups + 1 }

/-- `futexWakeJoin` up to its loop. -/
def futexWakeJoin (tid : Nat) (s : Scheduler) : Option Scheduler :=
  let info := s.futexJoin tid
  if info.maxWakes ≤ s.maxAllowedFutexWakeups ∧ info.wokenUp ≤ info.maxWakes then
    let allowed := s.maxAllowedFutexWakeups - (info.maxWakes - info.wokenUp)
    if s.unmatchedFutexWakeups ≤ allowed then
      some { s with maxAllowedFutexWakeups := allowed }
    else Option.none
  else Option.none

/-- The loop ends: `join` clears the action. -/
def finishJoin (tid : Nat) (s : Scheduler) : Scheduler :=
  (s.setJoin tid { s.futexJoin tid with action := .none }).setPlace tid .joined

/-- The start of `join`. -/
def join (tid : Nat) (s : Scheduler) : Option Scheduler :=
  match (s.futexJoin tid).action with
  | .none => some (s.setPlace tid .joined)
  | .wait => some (s.futexWaitJoin.finishJoin tid)
  | .wake => (s.futexWakeJoin tid).map (setPlace tid .matching)

/-- The loop finds enough waiters after it has acquired the lock. -/
def matchWakes (tid : Nat) (s : Scheduler) : Scheduler :=
  let wokenUp := (s.futexJoin tid).wokenUp
  { s with
    unmatchedFutexWakeups := s.unmatchedFutexWakeups - wokenUp
    maxAllowedFutexWakeups := s.maxAllowedFutexWakeups - wokenUp }.finishJoin tid

/-- The loop gives up after two seconds. -/
def timeout (tid : Nat) (s : Scheduler) : Scheduler :=
  let wokenUp := (s.futexJoin tid).wokenUp
  { s with
    unmatchedFutexWakeups := 0
    maxAllowedFutexWakeups := s.maxAllowedFutexWakeups - wokenUp }.finishJoin tid

/-- A thread that ends or fast-forwards loses its `ThreadInfo`, and starts with a new one. -/
def finish (tid : Nat) (s : Scheduler) : Scheduler :=
  (s.setJoin tid ⟨.none, 0, 0⟩).setPlace tid .joined

end Scheduler

/-- What happens to the threads.  A wake that threads outside the simulation make is seen only in
the waiter that it wakes. -/
inductive Op where
  | wakeStart (tid : Nat) (val : Int32)
  | wakeEnd (tid : Nat) (res : Int32)
  | waitWoken (tid : Nat)
  | join (tid : Nat)
  | matchWakes (tid : Nat)
  | timeout (tid : Nat)
  | finish (tid : Nat)
deriving DecidableEq

def Op.tid : Op → Nat
  | .wakeStart tid _ | .wakeEnd tid _ | .waitWoken tid | .join tid | .matchWakes tid
  | .timeout tid | .finish tid => tid

/-- The thread is not in a wake call, nor in the loop. -/
def Place.free : Place → Bool
  | .joined | .returned => true
  | .inWake _ | .matching => false

/-- The thread is where it can do this.  System calls may follow each other with no join between
them, and a thread may end anywhere. -/
def Enabled (op : Op) (s : Scheduler) : Prop :=
  match op with
  | .wakeStart tid _ | .waitWoken tid | .join tid => (s.place tid).free = true
  | .wakeEnd tid _ => (s.place tid).isInWake = true
  | .matchWakes tid => s.place tid = .matching ∧
    (s.futexJoin tid).wokenUp ≤ s.unmatchedFutexWakeups
  | .timeout tid => s.place tid = .matching
  | .finish _ => True

def step (op : Op) (s : Scheduler) : Option Scheduler :=
  match op with
  | .wakeStart tid val => (s.notifyFutexWakeStart tid val).map (.setPlace tid (.inWake val))
  | .wakeEnd tid res =>
    match s.place tid with
    | .inWake val => some ((s.wakeReturns tid res val).setPlace tid .returned)
    | _ => none
  | .waitWoken tid => some ((s.notifyFutexWaitWoken tid).setPlace tid .returned)
  | .join tid => s.join tid
  | .matchWakes tid => some (s.matchWakes tid)
  | .timeout tid => some (s.timeout tid)
  | .finish tid => some (s.finish tid)

/-! ### Allowances -/

/-- The allowance of a thread's wake call, from its start until it is matched or gives up. -/
def allowance (s : Scheduler) (tid : Nat) : UInt32 :=
  match s.place tid with
  | .inWake _ => (s.futexJoin tid).maxWakes
  | .returned => if (s.futexJoin tid).action = .wake then (s.futexJoin tid).maxWakes else 0
  | .matching => (s.futexJoin tid).wokenUp
  | .joined => 0

/-- The counters of `n` threads. -/
structure Counted (n : Nat) (s : Scheduler) : Prop where
  allowed : s.maxAllowedFutexWakeups.toNat = ∑ tid ∈ Finset.range n, (allowance s tid).toNat
  unmatched : s.unmatchedFutexWakeups ≤ s.maxAllowedFutexWakeups

/-- The waiters that a thread's wake call has woken, or may still wake while it has not returned. -/
def mayWake (s : Scheduler) (tid : Nat) : UInt32 :=
  match s.place tid with
  | .inWake _ => (s.futexJoin tid).maxWakes
  | .returned => if (s.futexJoin tid).action = .wake then (s.futexJoin tid).wokenUp else 0
  | .matching => (s.futexJoin tid).wokenUp
  | .joined => 0

/-- The conditions on a step of `n` threads.  A thread makes a wake call only when it has joined
with its last futex call, and is woken or ends only when it has joined with its last wake call.  A
start does not overflow the counter.  A call with an allowance does not return an error; what it
returns is within its allowance, and with the other calls covers the waiters that have joined
unmatched.  A waiter that is counted is one that a call has woken or may still wake. -/
def Steady (n : Nat) (op : Op) (s : Scheduler) : Prop :=
  match op with
  | .wakeStart tid val => (s.futexJoin tid).action = .none ∧
    s.maxAllowedFutexWakeups.toNat + (Scheduler.cappedWakes val).toNat < 2 ^ 32
  | .wakeEnd tid res =>
    match s.place tid with
    | .inWake val => (res < 0 → Scheduler.cappedWakes val = 0) ∧
      (res ≥ 0 → Scheduler.wokenUp res val ≤ Scheduler.cappedWakes val ∧
        s.unmatchedFutexWakeups.toNat ≤ ∑ t ∈ (Finset.range n).erase tid, (mayWake s t).toNat +
          (Scheduler.wokenUp res val).toNat)
    | _ => True
  | .waitWoken tid => (s.futexJoin tid).action ≠ .wake
  | .join tid => (s.futexJoin tid).action = .wait →
    s.maxAllowedFutexWakeups ≤ s.unmatchedFutexWakeups ∨
      s.unmatchedFutexWakeups.toNat < ∑ t ∈ Finset.range n, (mayWake s t).toNat
  | .finish tid => (s.place tid).free = true ∧ (s.futexJoin tid).action ≠ .wake
  | .matchWakes _ | .timeout _ => True

/-- The conditions on an operation of one of `n` threads. -/
def Ok (n : Nat) (op : Op) (s : Scheduler) : Prop := op.tid < n ∧ Enabled op s ∧ Steady n op s

instance decidableEnabled : ∀ (op : Op) (s : Scheduler), Decidable (Enabled op s)
  | .wakeStart tid _, s | .waitWoken tid, s | .join tid, s =>
    inferInstanceAs (Decidable ((s.place tid).free = true))
  | .wakeEnd tid _, s => inferInstanceAs (Decidable ((s.place tid).isInWake = true))
  | .matchWakes tid, s => inferInstanceAs (Decidable (s.place tid = .matching ∧
    (s.futexJoin tid).wokenUp ≤ s.unmatchedFutexWakeups))
  | .timeout tid, s => inferInstanceAs (Decidable (s.place tid = .matching))
  | .finish _, _ => isTrue trivial

instance decidableSteady (n : Nat) : ∀ (op : Op) (s : Scheduler), Decidable (Steady n op s)
  | .wakeStart tid val, s => inferInstanceAs (Decidable ((s.futexJoin tid).action = .none ∧
    s.maxAllowedFutexWakeups.toNat + (Scheduler.cappedWakes val).toNat < 2 ^ 32))
  | .wakeEnd tid res, s =>
    match hplace : s.place tid with
    | .inWake val => decidable_of_iff ((res < 0 → Scheduler.cappedWakes val = 0) ∧
      (res ≥ 0 → Scheduler.wokenUp res val ≤ Scheduler.cappedWakes val ∧
        s.unmatchedFutexWakeups.toNat ≤ ∑ t ∈ (Finset.range n).erase tid, (mayWake s t).toNat +
          (Scheduler.wokenUp res val).toNat)) (by simp [Steady, hplace])
    | .joined | .returned | .matching => isTrue (by simp [Steady, hplace])
  | .waitWoken tid, s => inferInstanceAs (Decidable ((s.futexJoin tid).action ≠ .wake))
  | .join tid, s => inferInstanceAs (Decidable ((s.futexJoin tid).action = .wait →
    s.maxAllowedFutexWakeups ≤ s.unmatchedFutexWakeups ∨
      s.unmatchedFutexWakeups.toNat < ∑ t ∈ Finset.range n, (mayWake s t).toNat))
  | .finish tid, s => inferInstanceAs (Decidable ((s.place tid).free = true ∧
    (s.futexJoin tid).action ≠ .wake))
  | .matchWakes _, _ | .timeout _, _ => isTrue trivial

instance (n : Nat) (op : Op) (s : Scheduler) : Decidable (Ok n op s) :=
  inferInstanceAs (Decidable (op.tid < n ∧ Enabled op s ∧ Steady n op s))

/-- What holds between two operations of `n` threads. -/
structure Inv (n : Nat) (s : Scheduler) : Prop where
  allowed : s.maxAllowedFutexWakeups.toNat = ∑ tid ∈ Finset.range n, (allowance s tid).toNat
  woken : s.unmatchedFutexWakeups.toNat ≤ ∑ tid ∈ Finset.range n, (mayWake s tid).toNat
  joined : ∀ tid, s.place tid = .joined → (s.futexJoin tid).action = .none
  inWake : ∀ tid val, s.place tid = .inWake val →
    (s.futexJoin tid).action = .none ∧ (s.futexJoin tid).maxWakes = Scheduler.cappedWakes val
  returned : ∀ tid, s.place tid = .returned → (s.futexJoin tid).action = .wake →
    (s.futexJoin tid).wokenUp ≤ (s.futexJoin tid).maxWakes

theorem init_inv (n : Nat) : Inv n init where
  allowed := by simp [init, allowance]
  woken := Nat.zero_le _
  joined _ _ := rfl
  inWake _ _ h := by simp [init] at h
  returned _ h := by simp [init] at h

variable {n tid : Nat} {s s' : Scheduler}

/-- An operation that changes nothing of the other threads. -/
structure Only (tid : Nat) (s s' : Scheduler) : Prop where
  futexJoin : ∀ t, t ≠ tid → s'.futexJoin t = s.futexJoin t
  place : ∀ t, t ≠ tid → s'.place t = s.place t

/-- A call has woken, or may wake, no more than its allowance. -/
theorem Inv.mayWake_le (h : Inv n s) (t : Nat) : (mayWake s t).toNat ≤ (allowance s t).toNat := by
  unfold mayWake allowance
  cases hplace : s.place t with
  | joined | inWake | matching => exact le_rfl
  | returned =>
    dsimp only
    split
    · rename_i haction
      exact UInt32.le_iff_toNat_le.mp (h.returned t hplace haction)
    · exact le_rfl

theorem Inv.counted (h : Inv n s) : Counted n s := by
  refine ⟨h.allowed, UInt32.le_iff_toNat_le.mpr ?_⟩
  rw [h.allowed]
  exact h.woken.trans (Finset.sum_le_sum fun t _ => h.mayWake_le t)

/-- The invariant after a step of one thread, whose call changes with the counters. -/
theorem Inv.only (h : Inv n s) (htid : tid < n) (honly : Only tid s s')
    (hallowed : s'.maxAllowedFutexWakeups.toNat + (allowance s tid).toNat =
      s.maxAllowedFutexWakeups.toNat + (allowance s' tid).toNat)
    (hwoken : s'.unmatchedFutexWakeups.toNat + (mayWake s tid).toNat ≤
      ∑ t ∈ Finset.range n, (mayWake s t).toNat + (mayWake s' tid).toNat)
    (hjoined : s'.place tid = .joined → (s'.futexJoin tid).action = .none)
    (hinWake : ∀ val, s'.place tid = .inWake val →
      (s'.futexJoin tid).action = .none ∧ (s'.futexJoin tid).maxWakes = Scheduler.cappedWakes val)
    (hreturned : s'.place tid = .returned → (s'.futexJoin tid).action = .wake →
      (s'.futexJoin tid).wokenUp ≤ (s'.futexJoin tid).maxWakes) : Inv n s' := by
  refine ⟨?_, ?_, fun t => ?_, fun t => ?_, fun t => ?_⟩
  · have hsum := sum_changed (f := fun t => (allowance s t).toNat)
      (g := fun t => (allowance s' t).toNat) htid fun t _ ht => by
        simp only [allowance, honly.futexJoin t ht, honly.place t ht]
    have hcounted := h.allowed
    omega
  · have hsum := sum_changed (f := fun t => (mayWake s t).toNat)
      (g := fun t => (mayWake s' t).toNat) htid fun t _ ht => by
        simp only [mayWake, honly.futexJoin t ht, honly.place t ht]
    omega
  · by_cases ht : t = tid
    · exact ht ▸ hjoined
    · rw [honly.place t ht, honly.futexJoin t ht]
      exact h.joined t
  · by_cases ht : t = tid
    · exact ht ▸ hinWake
    · rw [honly.place t ht, honly.futexJoin t ht]
      exact h.inWake t
  · by_cases ht : t = tid
    · exact ht ▸ hreturned
    · rw [honly.place t ht, honly.futexJoin t ht]
      exact h.returned t

/-- A thread's allowance is part of the counter. -/
theorem Inv.allowance_le (h : Inv n s) (htid : tid < n) :
    (allowance s tid).toNat ≤ s.maxAllowedFutexWakeups.toNat := by
  rw [h.allowed]
  exact le_sum (f := fun t => (allowance s t).toNat) htid

/-- A thread that has joined with its last wake call has no call in flight. -/
theorem idle (hfree : (s.place tid).free = true) (haction : (s.futexJoin tid).action ≠ .wake) :
    allowance s tid = 0 ∧ mayWake s tid = 0 := by
  unfold allowance mayWake
  cases hplace : s.place tid with
  | joined => exact ⟨rfl, rfl⟩
  | returned => exact ⟨if_neg haction, if_neg haction⟩
  | inWake | matching => simp [hplace, Place.free] at hfree

theorem matching_eq (hplace : s.place tid = .matching) :
    allowance s tid = (s.futexJoin tid).wokenUp ∧ mayWake s tid = (s.futexJoin tid).wokenUp := by
  unfold allowance mayWake
  rw [hplace]
  exact ⟨rfl, rfl⟩

/-! ### Steps -/

section Steps

variable (h : Inv n s) (htid : tid < n)
include h htid

theorem Inv.wakeStart {val : Int32} (henabled : Enabled (.wakeStart tid val) s)
    (hsteady : Steady n (.wakeStart tid val) s) :
    ∃ s', step (.wakeStart tid val) s = some s' ∧ Inv n s' := by
  obtain ⟨haction, hfits⟩ := hsteady
  have hadd : (s.maxAllowedFutexWakeups + Scheduler.cappedWakes val).toNat =
      s.maxAllowedFutexWakeups.toNat + (Scheduler.cappedWakes val).toNat := by
    rw [UInt32.toNat_add, Nat.mod_eq_of_lt hfits]
  obtain ⟨hallowance, hmay⟩ := idle henabled (by rw [haction]; decide)
  have hwoken := h.woken
  refine ⟨_, by rw [step, Scheduler.notifyFutexWakeStart, if_pos haction, Option.map_some], ?_⟩
  refine h.only htid ?_ ?_ ?_ ?_ ?_ ?_
  · exact ⟨fun t ht => Function.update_of_ne ht .., fun t ht => Function.update_of_ne ht ..⟩
  · rw [hallowance]
    simp [allowance, Scheduler.setPlace, Scheduler.setJoin, hadd]
  · rw [hmay]
    exact Nat.le_add_right_of_le hwoken
  · simp [Scheduler.setPlace]
  · intro v hv
    simp only [Scheduler.setPlace, Function.update_self, Place.inWake.injEq] at hv
    simp [Scheduler.setPlace, Scheduler.setJoin, haction, hv]
  · simp [Scheduler.setPlace]

theorem Inv.wakeEnd {res : Int32} (henabled : Enabled (.wakeEnd tid res) s)
    (hsteady : Steady n (.wakeEnd tid res) s) :
    ∃ s', step (.wakeEnd tid res) s = some s' ∧ Inv n s' := by
  obtain ⟨val, hval⟩ : ∃ val, s.place tid = .inWake val := by
    have hin : (s.place tid).isInWake = true := henabled
    cases hplace : s.place tid with
    | inWake val => exact ⟨val, rfl⟩
    | joined | returned | matching => simp [hplace, Place.isInWake] at hin
  obtain ⟨haction, hmax⟩ := h.inWake tid val hval
  simp only [Steady, hval] at hsteady
  obtain ⟨herror, hreturns⟩ := hsteady
  have hallowance : allowance s tid = Scheduler.cappedWakes val := by
    unfold allowance
    rw [hval, hmax]
  have hmay : mayWake s tid = Scheduler.cappedWakes val := by
    unfold mayWake
    rw [hval, hmax]
  refine ⟨(s.wakeReturns tid res val).setPlace tid .returned, by simp only [step, hval], ?_⟩
  by_cases hres : res ≥ 0
  · -- The call returns the number of threads it woke.
    obtain ⟨hle, hothers⟩ := hreturns hres
    have hsum : (mayWake s tid).toNat + ∑ t ∈ (Finset.range n).erase tid, (mayWake s t).toNat =
        ∑ t ∈ Finset.range n, (mayWake s t).toNat :=
      Finset.add_sum_erase _ (fun t => (mayWake s t).toNat) (Finset.mem_range.mpr htid)
    simp only [Scheduler.wakeReturns, if_pos hres]
    refine h.only htid ?_ ?_ ?_ ?_ ?_ ?_
    · exact ⟨fun t ht => Function.update_of_ne ht .., fun t ht => Function.update_of_ne ht ..⟩
    · rw [hallowance]
      simp [allowance, Scheduler.notifyFutexWakeEnd, Scheduler.setPlace, Scheduler.setJoin, hmax]
    · have hnew : mayWake ((s.notifyFutexWakeEnd tid (Scheduler.wokenUp res val)).setPlace tid
          .returned) tid = Scheduler.wokenUp res val := by
        simp [mayWake, Scheduler.notifyFutexWakeEnd, Scheduler.setPlace, Scheduler.setJoin]
      rw [hnew]
      change s.unmatchedFutexWakeups.toNat + _ ≤ _
      omega
    · simp [Scheduler.setPlace]
    · simp [Scheduler.setPlace]
    · simpa [Scheduler.notifyFutexWakeEnd, Scheduler.setPlace, Scheduler.setJoin, hmax] using hle
  · -- An error, of a call without an allowance.
    have hzero := herror (by simpa using hres)
    simp only [Scheduler.wakeReturns, if_neg hres]
    refine h.only htid ?_ ?_ ?_ ?_ ?_ ?_
    · exact ⟨fun _ _ => rfl, fun t ht => Function.update_of_ne ht ..⟩
    · rw [hallowance, hzero]
      simp [allowance, Scheduler.setPlace, haction]
    · rw [hmay, hzero]
      exact Nat.le_add_right_of_le h.woken
    · simp [Scheduler.setPlace]
    · simp [Scheduler.setPlace]
    · simp [Scheduler.setPlace, haction]

theorem Inv.waitWoken (henabled : Enabled (.waitWoken tid) s)
    (hsteady : Steady n (.waitWoken tid) s) :
    ∃ s', step (.waitWoken tid) s = some s' ∧ Inv n s' := by
  obtain ⟨hallowance, hmay⟩ := idle henabled hsteady
  refine ⟨_, rfl, ?_⟩
  refine h.only htid ?_ ?_ ?_ ?_ ?_ ?_
  · exact ⟨fun t ht => Function.update_of_ne ht .., fun t ht => Function.update_of_ne ht ..⟩
  · rw [hallowance]
    simp [allowance, Scheduler.notifyFutexWaitWoken, Scheduler.setPlace, Scheduler.setJoin]
  · rw [hmay]
    exact Nat.le_add_right_of_le h.woken
  · simp [Scheduler.setPlace]
  · simp [Scheduler.setPlace]
  · simp [Scheduler.notifyFutexWaitWoken, Scheduler.setPlace, Scheduler.setJoin]

omit htid in
/-- What a waiter adds to the counter when it joins. -/
theorem Inv.waitJoin (hsteady : Steady n (.join tid) s)
    (haction : (s.futexJoin tid).action = .wait) :
    s.futexWaitJoin.maxAllowedFutexWakeups = s.maxAllowedFutexWakeups ∧
      s.futexWaitJoin.futexJoin = s.futexJoin ∧ s.futexWaitJoin.place = s.place ∧
      s.futexWaitJoin.unmatchedFutexWakeups.toNat ≤
        ∑ t ∈ Finset.range n, (mayWake s t).toNat := by
  unfold Scheduler.futexWaitJoin
  split
  case isTrue => exact ⟨rfl, rfl, rfl, h.woken⟩
  case isFalse hlt =>
    refine ⟨rfl, rfl, rfl, ?_⟩
    have hroom := (hsteady haction).resolve_left hlt
    dsimp only
    rw [UInt32.toNat_add, UInt32.toNat_one]
    exact (Nat.mod_le _ _).trans hroom

theorem Inv.join (henabled : Enabled (.join tid) s) (hsteady : Steady n (.join tid) s) :
    ∃ s', step (.join tid) s = some s' ∧ Inv n s' := by
  cases haction : (s.futexJoin tid).action with
  | none =>
    obtain ⟨hallowance, hmay⟩ := idle henabled (by rw [haction]; decide)
    refine ⟨s.setPlace tid .joined, by simp only [step, Scheduler.join, haction], ?_⟩
    refine h.only htid ?_ ?_ ?_ ?_ ?_ ?_
    · exact ⟨fun _ _ => rfl, fun t ht => Function.update_of_ne ht ..⟩
    · rw [hallowance]
      simp [allowance, Scheduler.setPlace]
    · rw [hmay]
      exact Nat.le_add_right_of_le h.woken
    · exact fun _ => haction
    · simp [Scheduler.setPlace]
    · simp [Scheduler.setPlace]
  | wait =>
    obtain ⟨hallowance, hmay⟩ := idle henabled (by rw [haction]; decide)
    obtain ⟨hallowed, hjoin, hplace, hwoken⟩ := h.waitJoin hsteady haction
    refine ⟨s.futexWaitJoin.finishJoin tid, by simp only [step, Scheduler.join, haction], ?_⟩
    refine h.only htid ?_ ?_ ?_ ?_ ?_ ?_
    · refine ⟨fun t ht => ?_, fun t ht => ?_⟩
      · exact (Function.update_of_ne ht ..).trans (by rw [hjoin])
      · exact (Function.update_of_ne ht ..).trans (by rw [← hplace]; rfl)
    · rw [hallowance]
      simp [allowance, Scheduler.finishJoin, Scheduler.setPlace, Scheduler.setJoin, hallowed]
    · rw [hmay]
      exact Nat.le_add_right_of_le hwoken
    · simp [Scheduler.finishJoin, Scheduler.setPlace, Scheduler.setJoin]
    · simp [Scheduler.finishJoin, Scheduler.setPlace]
    · simp [Scheduler.finishJoin, Scheduler.setPlace]
  | wake =>
    have hplace : s.place tid = .returned := by
      have hfree : (s.place tid).free = true := henabled
      cases hplace : s.place tid with
      | returned => rfl
      | joined => exact absurd ((h.joined tid hplace).symm.trans haction) (by decide)
      | inWake | matching => simp [hplace, Place.free] at hfree
    have hwoken := h.returned tid hplace haction
    have hle := h.allowance_le htid
    have hallowance : allowance s tid = (s.futexJoin tid).maxWakes := by
      unfold allowance
      rw [hplace]
      exact if_pos haction
    have hmay : mayWake s tid = (s.futexJoin tid).wokenUp := by
      unfold mayWake
      rw [hplace]
      exact if_pos haction
    -- Without what the call did not use, the counter is still no less than what calls have woken.
    have hroom : s.unmatchedFutexWakeups.toNat + (allowance s tid).toNat ≤
        s.maxAllowedFutexWakeups.toNat + (mayWake s tid).toNat := by
      have hsum := Finset.sum_le_sum fun t (_ : t ∈ (Finset.range n).erase tid) => h.mayWake_le t
      have hmem := Finset.mem_range.mpr htid
      have hall := Finset.add_sum_erase _ (fun t => (allowance s t).toNat) hmem
      have hmays := Finset.add_sum_erase _ (fun t => (mayWake s t).toNat) hmem
      have hallowed := h.allowed
      have hunmatched := h.woken
      omega
    rw [hallowance] at hle
    rw [hallowance, hmay] at hroom
    have hrest : ((s.futexJoin tid).maxWakes - (s.futexJoin tid).wokenUp).toNat +
        (s.futexJoin tid).wokenUp.toNat = (s.futexJoin tid).maxWakes.toNat := by
      rw [UInt32.toNat_sub_of_le _ _ hwoken]
      rw [UInt32.le_iff_toNat_le] at hwoken
      omega
    have hgive : (s.maxAllowedFutexWakeups -
        ((s.futexJoin tid).maxWakes - (s.futexJoin tid).wokenUp)).toNat +
          ((s.futexJoin tid).maxWakes - (s.futexJoin tid).wokenUp).toNat =
        s.maxAllowedFutexWakeups.toNat := by
      rw [UInt32.toNat_sub_of_le]
      · omega
      · rw [UInt32.le_iff_toNat_le]
        omega
    have hfits : s.unmatchedFutexWakeups ≤ s.maxAllowedFutexWakeups -
        ((s.futexJoin tid).maxWakes - (s.futexJoin tid).wokenUp) := by
      rw [UInt32.le_iff_toNat_le]
      omega
    have hjoin : s.futexWakeJoin tid = some { s with maxAllowedFutexWakeups :=
        s.maxAllowedFutexWakeups - ((s.futexJoin tid).maxWakes - (s.futexJoin tid).wokenUp) } := by
      rw [Scheduler.futexWakeJoin, if_pos ⟨UInt32.le_iff_toNat_le.mpr hle, hwoken⟩]
      simp only [if_pos hfits]
    refine ⟨_, by simp only [step, Scheduler.join, haction, hjoin, Option.map_some]; rfl, ?_⟩
    refine h.only htid ?_ ?_ ?_ ?_ ?_ ?_
    · exact ⟨fun _ _ => rfl, fun t ht => Function.update_of_ne ht ..⟩
    · rw [hallowance]
      simp only [allowance, Scheduler.setPlace, Function.update_self]
      omega
    · rw [hmay]
      simp only [mayWake, Scheduler.setPlace, Function.update_self]
      exact Nat.add_le_add_right h.woken _
    · simp [Scheduler.setPlace]
    · simp [Scheduler.setPlace]
    · simp [Scheduler.setPlace]

/-- A call that is in its loop can take its allowance off the counter. -/
theorem Inv.subtract (hplace : s.place tid = .matching) :
    (s.maxAllowedFutexWakeups - (s.futexJoin tid).wokenUp).toNat + (s.futexJoin tid).wokenUp.toNat =
      s.maxAllowedFutexWakeups.toNat := by
  have hle := h.allowance_le htid
  rw [(matching_eq hplace).1] at hle
  rw [UInt32.toNat_sub_of_le _ _ (UInt32.le_iff_toNat_le.mpr hle)]
  omega

/-- The loop of a call ends with both counters lowered. -/
theorem Inv.finishJoin (hplace : s.place tid = .matching) {unmatched : UInt32}
    (hunmatched : unmatched.toNat + (s.futexJoin tid).wokenUp.toNat ≤
      ∑ t ∈ Finset.range n, (mayWake s t).toNat) :
    Inv n ({ s with
      unmatchedFutexWakeups := unmatched
      maxAllowedFutexWakeups :=
        s.maxAllowedFutexWakeups - (s.futexJoin tid).wokenUp }.finishJoin tid) := by
  have hsub := h.subtract (show tid < n from htid) hplace
  obtain ⟨hallowance, hmay⟩ := matching_eq hplace
  refine h.only htid ?_ ?_ ?_ ?_ ?_ ?_
  · exact ⟨fun t ht => Function.update_of_ne ht .., fun t ht => Function.update_of_ne ht ..⟩
  · rw [hallowance]
    simpa [allowance, Scheduler.finishJoin, Scheduler.setPlace, Scheduler.setJoin] using hsub
  · rw [hmay]
    exact Nat.le_add_right_of_le hunmatched
  · simp [Scheduler.finishJoin, Scheduler.setPlace, Scheduler.setJoin]
  · simp [Scheduler.finishJoin, Scheduler.setPlace]
  · simp [Scheduler.finishJoin, Scheduler.setPlace]

theorem Inv.matchWakes (henabled : Enabled (.matchWakes tid) s) :
    ∃ s', step (.matchWakes tid) s = some s' ∧ Inv n s' := by
  obtain ⟨hplace, hle⟩ := henabled
  refine ⟨_, rfl, h.finishJoin htid hplace ?_⟩
  have hwoken := h.woken
  rw [UInt32.toNat_sub_of_le _ _ hle]
  rw [UInt32.le_iff_toNat_le] at hle
  omega

theorem Inv.timeout (henabled : Enabled (.timeout tid) s) :
    ∃ s', step (.timeout tid) s = some s' ∧ Inv n s' := by
  refine ⟨_, rfl, h.finishJoin htid henabled ?_⟩
  have hle : (mayWake s tid).toNat ≤ _ := le_sum (f := fun t => (mayWake s t).toNat) htid
  rw [(matching_eq henabled).2] at hle
  simpa using hle

theorem Inv.finish (hsteady : Steady n (.finish tid) s) :
    ∃ s', step (.finish tid) s = some s' ∧ Inv n s' := by
  obtain ⟨hallowance, hmay⟩ := idle hsteady.1 hsteady.2
  refine ⟨_, rfl, h.only htid ?_ ?_ ?_ ?_ ?_ ?_⟩
  · exact ⟨fun t ht => Function.update_of_ne ht .., fun t ht => Function.update_of_ne ht ..⟩
  · rw [hallowance]
    simp [allowance, Scheduler.finish, Scheduler.setPlace, Scheduler.setJoin]
  · rw [hmay]
    exact Nat.le_add_right_of_le h.woken
  · simp [Scheduler.finish, Scheduler.setPlace, Scheduler.setJoin]
  · simp [Scheduler.finish, Scheduler.setPlace]
  · simp [Scheduler.finish, Scheduler.setPlace]

end Steps

theorem Inv.step {op : Op} (h : Inv n s) (hok : Ok n op s) :
    ∃ s', step op s = some s' ∧ Inv n s' := by
  obtain ⟨htid, henabled, hsteady⟩ := hok
  cases op with
  | wakeStart tid val => exact h.wakeStart htid henabled hsteady
  | wakeEnd tid res => exact h.wakeEnd htid henabled hsteady
  | waitWoken tid => exact h.waitWoken htid henabled hsteady
  | join tid => exact h.join htid henabled hsteady
  | matchWakes tid => exact h.matchWakes htid henabled
  | timeout tid => exact h.timeout htid henabled
  | finish tid => exact h.finish htid hsteady

/-- The steps that take from the counters take no more than there is. -/
theorem Inv.lowers {op : Op} (h : Inv n s) (hok : Ok n op s) (hstep : Futex.step op s = some s')
    (hop : op = .join tid ∨ op = .matchWakes tid ∨ op = .timeout tid) :
    s'.maxAllowedFutexWakeups ≤ s.maxAllowedFutexWakeups ∧
      (op ≠ .join tid → s'.unmatchedFutexWakeups ≤ s.unmatchedFutexWakeups) := by
  obtain ⟨htid, henabled, -⟩ := hok
  rcases hop with rfl | rfl | rfl
  · refine ⟨?_, fun hne => absurd rfl hne⟩
    simp only [Futex.step, Scheduler.join] at hstep
    split at hstep
    · cases hstep
      exact UInt32.le_refl _
    · cases hstep
      unfold Scheduler.futexWaitJoin
      split <;> exact UInt32.le_refl _
    · obtain ⟨s1, hjoin, rfl⟩ := Option.map_eq_some_iff.mp hstep
      obtain ⟨⟨hmax, hwoken⟩, hrest⟩ := Option.ite_none_right_eq_some.mp hjoin
      obtain ⟨-, heq⟩ := Option.ite_none_right_eq_some.mp hrest
      cases heq
      rw [UInt32.le_iff_toNat_le] at hmax hwoken ⊢
      have hgive : (s.futexJoin tid).maxWakes - (s.futexJoin tid).wokenUp ≤
          s.maxAllowedFutexWakeups := by
        rw [UInt32.le_iff_toNat_le, UInt32.toNat_sub_of_le _ _ (UInt32.le_iff_toNat_le.mpr hwoken)]
        omega
      simp only [Scheduler.setPlace]
      rw [UInt32.toNat_sub_of_le _ _ hgive]
      omega
  · obtain ⟨hplace, hwoken⟩ := henabled
    have hsub := h.subtract (show tid < n from htid) hplace
    cases hstep
    simp only [UInt32.le_iff_toNat_le, Scheduler.matchWakes, Scheduler.finishJoin,
      Scheduler.setPlace, Scheduler.setJoin]
    refine ⟨by omega, fun _ => ?_⟩
    rw [UInt32.toNat_sub_of_le _ _ hwoken]
    omega
  · have hsub := h.subtract (show tid < n from htid) henabled
    cases hstep
    simp only [UInt32.le_iff_toNat_le, Scheduler.timeout, Scheduler.finishJoin, Scheduler.setPlace,
      Scheduler.setJoin]
    exact ⟨by omega, fun _ => Nat.zero_le _⟩

/-- In a run whose steps meet the conditions no assertion fails, the counters are what they
count, and nothing that is taken from them is more than they hold. -/
theorem wakeups_counted (n : Nat) {ops : List Op} (hok : Along step (Ok n) ops init) :
    ∃ s, run step ops init = some s ∧ Counted n s ∧
      ∀ op tid s', Ok n op s → step op s = some s' →
        (op = .join tid ∨ op = .matchWakes tid ∨ op = .timeout tid) →
        s'.maxAllowedFutexWakeups ≤ s.maxAllowedFutexWakeups ∧
          (op ≠ .join tid → s'.unmatchedFutexWakeups ≤ s.unmatchedFutexWakeups) := by
  obtain ⟨s, hrun, hinv⟩ := run_keeps (fun op s hs hop => hs.step hop) ops (init_inv n) hok
  exact ⟨s, hrun, hinv.counted, fun op tid s' hop hstep hjoin => hinv.lowers hop hstep hjoin⟩

/-- A call that wakes one waiter, which joins first. -/
theorem wakeups_counted_two : ∃ s,
    run step [.wakeStart 0 1, .waitWoken 1, .wakeEnd 0 1, .join 1, .join 0, .matchWakes 0] init =
      some s ∧ Counted 2 s ∧
      ∀ op tid s', Ok 2 op s → step op s = some s' →
        (op = .join tid ∨ op = .matchWakes tid ∨ op = .timeout tid) →
        s'.maxAllowedFutexWakeups ≤ s.maxAllowedFutexWakeups ∧
          (op ≠ .join tid → s'.unmatchedFutexWakeups ≤ s.unmatchedFutexWakeups) :=
  wakeups_counted 2 (by decide)

/-- A call that returns an error leaves its allowance behind, with no call in flight; so does a call
whose thread is woken from a wait before it joins, or ends.  The assertions fail when a call that
may wake every waiter does wake some, and when a waiter that a thread outside the simulation woke
joins before a call that woke none. -/
theorem wakeups_fail :
    (∀ ops ∈ [[.wakeStart 0 1, .wakeEnd 0 (-1), .join 0],
        [.wakeStart 0 1, .wakeEnd 0 1, .waitWoken 0, .join 0], [.wakeStart 0 1, .finish 0]],
      Along step Enabled ops init ∧ ∃ s, run step ops init = some s ∧
        s.place 0 = .joined ∧ s.maxAllowedFutexWakeups = 1 ∧ ¬ Counted 1 s) ∧
    ∀ ops ∈ [[.wakeStart 0 (-1), .wakeEnd 0 3, .join 0],
        [.wakeStart 0 1, .waitWoken 1, .join 1, .wakeEnd 0 0, .join 0]],
      Along step Enabled ops init ∧ run step ops init = none := by
  have hleaks : ∀ s : Scheduler, s.place 0 = .joined → s.maxAllowedFutexWakeups = 1 →
      ¬ Counted 1 s := by
    intro s hplace hallowed hcounted
    have hsum := hcounted.allowed
    rw [hallowed, Finset.sum_range_one, allowance, hplace] at hsum
    exact Nat.one_ne_zero hsum
  simp only [List.forall_mem_cons, List.not_mem_nil, false_imp_iff, implies_true, and_true]
  refine ⟨⟨⟨by decide, ?_⟩, ⟨by decide, ?_⟩, by decide, ?_⟩, ⟨by decide, rfl⟩, by decide, rfl⟩
  · exact ⟨_, rfl, rfl, rfl, hleaks _ rfl rfl⟩
  · exact ⟨_, rfl, rfl, rfl, hleaks _ rfl rfl⟩
  · exact ⟨_, rfl, rfl, rfl, hleaks _ rfl rfl⟩

end Doppelganger.Futex
