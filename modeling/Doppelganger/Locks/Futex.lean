import Doppelganger.Lib.Roles
import Doppelganger.Lib.Run
import Mathlib.Tactic.Common

/-! The lock of `locks.h` that blocks on a futex.  Each read, compare-and-swap, exchange, addition
and system call of a thread is one step, and the steps of all threads come in any order.  The lock
refines a mutex, and no thread sleeps on it unless another one is bound to wake it. -/

namespace Doppelganger.Locks

open Function Lib

/-! ### A mutex -/

/-- A thread takes a mutex, or gives it back. -/
inductive Event (τ : Type*)
  | acquire (t : τ)
  | release (t : τ)

/-- What a mutex does: one thread has it at a time, and only that thread gives it back. -/
def mutexStep {τ : Type*} [DecidableEq τ] : Event τ → Option τ → Option (Option τ)
  | .acquire t, none => some (some t)
  | .acquire _, some _ => none
  | .release t, owner => if owner = some t then some none else none

/-! ### The lock -/

/-- `futex_lock`, `futex_lock_nospin` and `futex_trylock_nospin_timeout`. -/
inductive Call
  | lock
  | lockNospin
  | trylockTimeout
deriving DecidableEq

/-- How often a call tries to take the lock before it blocks. -/
def Call.spins : Call → Nat
  | .lock => 5
  | .lockNospin | .trylockTimeout => 1

/-- What a thread does next: nothing, a read of the lock or a compare-and-swap with `tries` more
rounds to come, the exchange before the system call, the system call, the exchange after it; and in
`futex_unlock` the store and the wakeup. -/
inductive Place
  | idle
  | test (call : Call) (tries : Nat)
  | cas (call : Call) (tries : Nat)
  | swap (call : Call)
  | wait (call : Call)
  | asleep (call : Call)
  | reswap (call : Call)
  | store
  | wake
deriving DecidableEq

def Place.isAsleep : Place → Bool
  | .asleep _ => true
  | _ => false

/-- The thread is going to wake a sleeper, or to make the one that has the lock do so. -/
def Place.wakes : Place → Bool
  | .reswap _ | .store | .wake => true
  | _ => false

/-- The lock word, where the threads are, the threads that the kernel has asleep, and the ghost
`owners`: the threads whose call has returned with the lock that was not given back yet. -/
structure Futex (τ : Type*) where
  word : UInt32
  place : τ → Place
  waiters : List τ
  owners : List τ

/-- `futex_init`. -/
def Futex.init {τ : Type*} : Futex τ := ⟨0, fun _ => .idle, [], []⟩

variable {τ : Type*} [DecidableEq τ]

namespace Futex

def setPlace (t : τ) (p : Place) (s : Futex τ) : Futex τ := { s with place := update s.place t p }

/-- The call of `t` returns with the lock. -/
def acquired (t : τ) (s : Futex τ) : Futex τ :=
  { s.setPlace t .idle with owners := t :: s.owners }

/-- The next round of the loop of tries, or the exchange after the last one. -/
def nextTry (call : Call) : Nat → Place
  | 0 => .swap call
  | n + 1 => .test call n

/-- `c = __sync_lock_test_and_set(lock, 2)`: the call has the lock if it was free, or goes on. -/
def exchange (t : τ) (next : Place) (s : Futex τ) : Futex τ :=
  if s.word = 0 then { s.acquired t with word := 2 } else { s.setPlace t next with word := 2 }

/-- After the second exchange without success: the calls that wait try again, the other one returns
`false`. -/
def afterWait : Call → Place
  | .lock => nextTry .lock Call.lock.spins
  | .lockNospin => nextTry .lockNospin Call.lockNospin.spins
  | .trylockTimeout => .idle

/-- A thread in the kernel is awake again. -/
def awaken (t : τ) (call : Call) (s : Futex τ) : Futex τ :=
  { s.setPlace t (.reswap call) with waiters := s.waiters.erase t }

/-- The next instruction of `t`, other than `FUTEX_WAKE`. -/
def advance (t : τ) (s : Futex τ) : Option (Futex τ) :=
  match s.place t with
  | .test call n => some (s.setPlace t (if s.word = 0 then .cas call n else nextTry call n))
  | .cas call n =>
    some (if s.word = 0 then { s.acquired t with word := 1 } else s.setPlace t (nextTry call n))
  | .swap call => some (s.exchange t (.wait call))
  | .wait call =>
    -- the kernel compares and sleeps in one step
    some (if s.word = 2 then { s.setPlace t (.asleep call) with waiters := t :: s.waiters }
      else s.setPlace t (.reswap call))
  | .reswap call => some (s.exchange t (afterWait call))
  | .store => some { s.setPlace t .wake with word := 0 }
  | _ => none

/-- `FUTEX_WAKE` with a count of 1, which wakes any one of the sleepers, if there is one. -/
def wakeOne (t : τ) (woken : Option τ) (s : Futex τ) : Option (Futex τ) :=
  match s.place t, woken with
  | .wake, none => if s.waiters = [] then some (s.setPlace t .idle) else none
  | .wake, some w =>
    match s.place w with
    | .asleep call => some ((s.setPlace t .idle).awaken w call)
    | _ => none
  | _, _ => none

/-- A signal or the timeout ends the sleep of `w`. -/
def interrupt (w : τ) (s : Futex τ) : Option (Futex τ) :=
  match s.place w with
  | .asleep call => some (s.awaken w call)
  | _ => none

/-- `t` calls `futex_unlock`, up to its first instruction, for the owner `owner`. -/
def unlock (t owner : τ) (s : Futex τ) : Option (Futex τ) :=
  if s.place t = .idle ∧ owner ∈ s.owners then
    some { s.setPlace t (if s.word = 1 then .idle else .store) with
      word := s.word - 1, owners := s.owners.erase owner }
  else none

end Futex

/-- What happens to the lock.  A thread may give back a lock that another one has taken, as the
last reader of a `rwmutex` does. -/
inductive FutexOp (τ : Type*)
  | call (t : τ) (call : Call)
  | advance (t : τ)
  | wakeOne (t : τ) (woken : Option τ)
  | interrupt (w : τ)
  | unlock (t owner : τ)

def futexStep : FutexOp τ → Futex τ → Option (Futex τ)
  | .call t call, s =>
    if s.place t = .idle then some (s.setPlace t (Futex.nextTry call call.spins)) else none
  | .advance t, s => s.advance t
  | .wakeOne t woken, s => s.wakeOne t woken
  | .interrupt w, s => s.interrupt w
  | .unlock t owner, s => s.unlock t owner

/-- The places whose next step takes the lock if it is free. -/
def Place.takes : Place → Bool
  | .cas .. | .swap _ | .reswap _ => true
  | _ => false

/-- The events of the mutex: a call returns with the lock, or `futex_unlock` is called. -/
def futexEvents : FutexOp τ → Futex τ → List (Event τ)
  | .advance t, s => if s.word = 0 ∧ (s.place t).takes = true then [.acquire t] else []
  | .unlock _ owner, _ => [.release owner]
  | _, _ => []

/-! ### The invariant -/

/-- A place that the invariant does not look at. -/
structure Place.Plain (p : Place) : Prop where
  store : p ≠ .store
  asleep : ¬ p.isAsleep = true
  wakes : ¬ p.wakes = true

theorem nextTry_plain (call : Call) : ∀ n, (Futex.nextTry call n).Plain
  | 0 | _ + 1 => ⟨nofun, nofun, nofun⟩

theorem afterWait_plain : ∀ call, (Futex.afterWait call).Plain
  | .lock => nextTry_plain .lock Call.lock.spins
  | .lockNospin => nextTry_plain .lockNospin Call.lockNospin.spins
  | .trylockTimeout => ⟨nofun, nofun, nofun⟩

namespace Futex

/-- The word is free exactly when nobody has the lock and no `futex_unlock` is before its store, and
a sleeper has a thread that wakes it, or an owner that sees it in the word. -/
structure Inv (s : Futex τ) : Prop where
  word : s.word = 0 ∨ s.word = 1 ∨ s.word = 2
  taken : ∃ storing, Role (· = Place.store) s.place storing ∧
    s.owners.length + storing.length = if s.word = 0 then 0 else 1
  asleep : Role (fun p => p.isAsleep = true) s.place s.waiters
  woken : s.waiters ≠ [] → s.word = 2 ∨ ∃ t, (s.place t).wakes = true

omit [DecidableEq τ] in
theorem inv_init : Inv (init : Futex τ) where
  word := .inl rfl
  taken := ⟨[], .nil nofun, rfl⟩
  asleep := .nil nofun
  woken := fun h => absurd rfl h

variable {s s' : Futex τ} {t w : τ} {p : Place} {call : Call}

/-- A step of `t` that neither sleeps nor stores, and leaves a word that is taken exactly as before
or takes it for `t`. -/
theorem Inv.moved {word : UInt32} {owners : List τ} (h : Inv s) (hold : (s.place t).Plain)
    (hnew : p.Plain) (hword : word = 0 ∨ word = 1 ∨ word = 2)
    (howners : owners.length + (if s.word = 0 then 0 else 1) =
      s.owners.length + if word = 0 then 0 else 1)
    (hwoken : s.word = 2 → word = 2) :
    Inv { s.setPlace t p with word := word, owners := owners } where
  word := hword
  taken := by
    obtain ⟨storing, hrole, hlen⟩ := h.taken
    refine ⟨storing, hrole.stay (iff_of_false hnew.store hold.store), ?_⟩
    change owners.length + storing.length = if word = 0 then 0 else 1
    omega
  asleep := h.asleep.stay (iff_of_false hnew.asleep hold.asleep)
  woken := fun hw => (h.woken hw).imp hwoken <|
    exists_update (fun p : Place => p.wakes = true) hold.wakes

/-- A step of `t` that changes only where `t` is. -/
theorem Inv.setPlace (h : Inv s) (hold : (s.place t).Plain) (hnew : p.Plain) :
    Inv (s.setPlace t p) :=
  h.moved hold hnew h.word rfl id

/-- An exchange leaves the word as it should be for a sleeper. -/
theorem Inv.exchange (h : Inv s) (hstore : s.place t ≠ .store)
    (hasleep : ¬ (s.place t).isAsleep = true) (hnew : p.Plain) : Inv (s.exchange t p) := by
  obtain ⟨storing, hrole, hlen⟩ := h.taken
  unfold Futex.exchange
  split
  case isTrue hzero =>
    rw [if_pos hzero] at hlen
    refine ⟨.inr (.inr rfl), ⟨storing, hrole.stay (iff_of_false nofun hstore), ?_⟩,
      h.asleep.stay (iff_of_false nofun hasleep), fun _ => .inl rfl⟩
    change s.owners.length + 1 + storing.length = 1
    omega
  case isFalse hzero =>
    rw [if_neg hzero] at hlen
    exact ⟨.inr (.inr rfl), ⟨storing, hrole.stay (iff_of_false hnew.store hstore), hlen⟩,
      h.asleep.stay (iff_of_false hnew.asleep hasleep), fun _ => .inl rfl⟩

/-- A thread that leaves the kernel makes the exchange that the other sleepers need. -/
theorem Inv.awaken (h : Inv s) (hw : s.place w = .asleep call) : Inv (s.awaken w call) where
  word := h.word
  taken := by
    obtain ⟨storing, hrole, hlen⟩ := h.taken
    exact ⟨storing, hrole.stay (iff_of_false nofun (by rw [hw]; nofun)), hlen⟩
  asleep := h.asleep.leave nofun
  woken := fun _ => .inr ⟨w, by simp [Futex.awaken, Futex.setPlace, Place.wakes]⟩

theorem Inv.start (h : Inv s) (ht : s.place t = .idle) :
    Inv (s.setPlace t (nextTry call call.spins)) :=
  h.setPlace (by rw [ht]; exact ⟨nofun, nofun, nofun⟩) (nextTry_plain ..)

theorem Inv.advance (h : Inv s) (hs' : s.advance t = some s') : Inv s' := by
  unfold Futex.advance at hs'
  split at hs'
  case h_1 call n hplace =>
    obtain rfl := Option.some.inj hs'
    apply h.setPlace (by rw [hplace]; exact ⟨nofun, nofun, nofun⟩)
    split
    · exact ⟨nofun, nofun, nofun⟩
    · exact nextTry_plain ..
  case h_2 call n hplace =>
    obtain rfl := Option.some.inj hs'
    have hold : (s.place t).Plain := by rw [hplace]; exact ⟨nofun, nofun, nofun⟩
    split
    case isTrue hzero =>
      refine h.moved hold ⟨nofun, nofun, nofun⟩ (.inr (.inl rfl)) ?_ fun htwo => ?_
      · rw [if_pos hzero]
        rfl
      · rw [hzero] at htwo
        exact absurd htwo (by decide)
    case isFalse => exact h.setPlace hold (nextTry_plain ..)
  case h_3 call hplace =>
    obtain rfl := Option.some.inj hs'
    exact h.exchange (by rw [hplace]; nofun) (by rw [hplace]; nofun) ⟨nofun, nofun, nofun⟩
  case h_4 call hplace =>
    obtain rfl := Option.some.inj hs'
    obtain ⟨storing, hrole, hlen⟩ := h.taken
    split
    case isTrue htwo =>
      exact ⟨h.word, ⟨storing, hrole.stay (iff_of_false nofun (by rw [hplace]; nofun)), hlen⟩,
        h.asleep.enter (by rw [hplace]; nofun) rfl, fun _ => .inl htwo⟩
    case isFalse =>
      exact ⟨h.word, ⟨storing, hrole.stay (iff_of_false nofun (by rw [hplace]; nofun)), hlen⟩,
        h.asleep.stay (iff_of_false nofun (by rw [hplace]; nofun)),
        fun _ => .inr ⟨t, by simp [Futex.setPlace, Place.wakes]⟩⟩
  case h_5 call hplace =>
    obtain rfl := Option.some.inj hs'
    exact h.exchange (by rw [hplace]; nofun) (by rw [hplace]; nofun) (afterWait_plain call)
  case h_6 hplace =>
    obtain rfl := Option.some.inj hs'
    obtain ⟨storing, hrole, hlen⟩ := h.taken
    have hmem : t ∈ storing := (hrole.mem t).mpr hplace
    have hpos := List.length_pos_of_mem hmem
    refine ⟨.inl rfl, ⟨storing.erase t, hrole.leave nofun, ?_⟩,
      h.asleep.stay (iff_of_false nofun (by rw [hplace]; nofun)),
      fun _ => .inr ⟨t, by simp [Futex.setPlace, Place.wakes]⟩⟩
    change s.owners.length + (storing.erase t).length = 0
    rw [List.length_erase_of_mem hmem]
    split at hlen <;> omega
  case h_7 => exact nomatch hs'

theorem Inv.interrupt (h : Inv s) (hs' : s.interrupt w = some s') : Inv s' := by
  unfold Futex.interrupt at hs'
  split at hs'
  case h_1 call hplace =>
    obtain rfl := Option.some.inj hs'
    exact h.awaken hplace
  case h_2 => exact nomatch hs'

theorem Inv.wakeOne {woken : Option τ} (h : Inv s) (hs' : s.wakeOne t woken = some s') :
    Inv s' := by
  unfold Futex.wakeOne at hs'
  split at hs'
  case h_1 hplace =>
    split at hs'
    case isTrue hnone =>
      obtain rfl := Option.some.inj hs'
      obtain ⟨storing, hrole, hlen⟩ := h.taken
      exact ⟨h.word, ⟨storing, hrole.stay (iff_of_false nofun (by rw [hplace]; nofun)), hlen⟩,
        h.asleep.stay (iff_of_false nofun (by rw [hplace]; nofun)), fun hw => absurd hnone hw⟩
    case isFalse => exact nomatch hs'
  case h_2 w hplace =>
    split at hs'
    case h_1 call hw =>
      obtain rfl := Option.some.inj hs'
      obtain ⟨storing, hrole, hlen⟩ := h.taken
      have hne : w ≠ t := by
        rintro rfl
        exact nomatch hplace.symm.trans hw
      refine ⟨h.word, ⟨storing, ?_, hlen⟩, ?_, fun _ => .inr ⟨w, ?_⟩⟩
      · have hrole : Role (· = Place.store) (update s.place t .idle) storing :=
          hrole.stay (iff_of_false nofun (by rw [hplace]; nofun))
        exact hrole.stay (iff_of_false nofun (by rw [update_of_ne hne, hw]; nofun))
      · have hasleep : Role (fun p => p.isAsleep = true) (update s.place t .idle) s.waiters :=
          h.asleep.stay (iff_of_false nofun (by rw [hplace]; nofun))
        exact hasleep.leave nofun
      · simp [Futex.awaken, Futex.setPlace, Place.wakes]
    case h_2 => exact nomatch hs'
  case h_3 => exact nomatch hs'

theorem Inv.unlock {owner : τ} (h : Inv s) (hs' : s.unlock t owner = some s') : Inv s' := by
  unfold Futex.unlock at hs'
  split at hs'
  case isFalse => exact nomatch hs'
  case isTrue hcall =>
    obtain rfl := Option.some.inj hs'
    obtain ⟨hidle, howner⟩ := hcall
    obtain ⟨storing, hrole, hlen⟩ := h.taken
    have hpos := List.length_pos_of_mem howner
    have hplain : (s.place t).Plain := by rw [hidle]; exact ⟨nofun, nofun, nofun⟩
    have herase : (s.owners.erase owner).length = s.owners.length - 1 :=
      List.length_erase_of_mem howner
    rcases h.word with hword | hword | hword
    · rw [if_pos hword] at hlen
      omega
    · rw [if_neg (by rw [hword]; decide)] at hlen
      rw [if_pos hword, hword]
      refine ⟨.inl rfl, ⟨storing, hrole.stay (iff_of_false nofun hplain.store), ?_⟩,
        h.asleep.stay (iff_of_false nofun hplain.asleep), fun hw => .inr ?_⟩
      · change (s.owners.erase owner).length + storing.length = 0
        omega
      · obtain htwo | hex := h.woken hw
        · rw [hword] at htwo
          exact absurd htwo (by decide)
        · exact exists_update (fun p : Place => p.wakes = true) hplain.wakes hex
    · rw [if_neg (by rw [hword]; decide)] at hlen
      rw [if_neg (by rw [hword]; decide), hword]
      refine ⟨.inr (.inl rfl), ⟨t :: storing, hrole.enter hplain.store rfl, ?_⟩,
        h.asleep.stay (iff_of_false nofun hplain.asleep),
        fun _ => .inr ⟨t, by simp [Futex.setPlace, Place.wakes]⟩⟩
      change (s.owners.erase owner).length + (storing.length + 1) = 1
      omega

end Futex

open Futex

/-- Every step keeps the invariant. -/
theorem Futex.Inv.step {s s' : Futex τ} (h : Inv s) (op : FutexOp τ)
    (hs' : futexStep op s = some s') : Inv s' := by
  cases op with
  | call t call =>
    change (if s.place t = .idle then _ else none) = _ at hs'
    split at hs'
    case isTrue hidle =>
      obtain rfl := Option.some.inj hs'
      exact h.start hidle
    case isFalse => exact nomatch hs'
  | advance t => exact h.advance hs'
  | wakeOne t woken => exact h.wakeOne hs'
  | interrupt w => exact h.interrupt hs'
  | unlock t owner => exact h.unlock hs'

/-! ### The refinement -/

section Refinement

variable {s s' : Futex τ} {t : τ}

omit [DecidableEq τ] in
theorem Futex.Inv.owners_le (h : Inv s) : s.owners.length ≤ 1 := by
  obtain ⟨storing, -, hlen⟩ := h.taken
  split at hlen <;> omega

omit [DecidableEq τ] in
theorem Futex.Inv.owners_of_free (h : Inv s) (hzero : s.word = 0) : s.owners = [] := by
  obtain ⟨storing, -, hlen⟩ := h.taken
  rw [if_pos hzero] at hlen
  exact List.length_eq_zero_iff.mp (by omega)

theorem advance_owners (hs' : s.advance t = some s') : s'.owners =
    if s.word = 0 ∧ (s.place t).takes = true then t :: s.owners else s.owners := by
  unfold Futex.advance at hs'
  cases hplace : s.place t <;> rw [hplace] at hs'
  case idle | asleep | wake => exact nomatch hs'
  all_goals obtain rfl := Option.some.inj hs'
  case cas | wait => split <;> simp_all [Place.takes, acquired, Futex.setPlace]
  case swap | reswap =>
    unfold Futex.exchange
    split <;> simp_all [Place.takes, acquired, Futex.setPlace]
  case test | store => simp [Place.takes, Futex.setPlace]

theorem wakeOne_owners {woken : Option τ} (hs' : s.wakeOne t woken = some s') :
    s'.owners = s.owners := by
  unfold Futex.wakeOne at hs'
  split at hs'
  case h_3 => exact nomatch hs'
  all_goals
    split at hs'
    · obtain rfl := Option.some.inj hs'
      rfl
    · exact nomatch hs'

theorem interrupt_owners {w : τ} (hs' : s.interrupt w = some s') : s'.owners = s.owners := by
  unfold Futex.interrupt at hs'
  split at hs'
  · obtain rfl := Option.some.inj hs'
    rfl
  · exact nomatch hs'

/-- What a step emits is what a mutex does. -/
theorem futexEvents_step (h : Inv s) {op : FutexOp τ} (hs' : futexStep op s = some s') :
    run mutexStep (futexEvents op s) s.owners.head? = some s'.owners.head? := by
  cases op with
  | call t call =>
    change (if s.place t = .idle then _ else none) = _ at hs'
    split at hs'
    case isTrue =>
      obtain rfl := Option.some.inj hs'
      rfl
    case isFalse => exact nomatch hs'
  | advance t =>
    rw [futexEvents, advance_owners hs']
    split
    case isTrue htakes =>
      rw [h.owners_of_free htakes.1]
      rfl
    case isFalse => rfl
  | wakeOne t woken =>
    rw [wakeOne_owners hs']
    rfl
  | interrupt w =>
    rw [interrupt_owners hs']
    rfl
  | unlock t owner =>
    change s.unlock t owner = some s' at hs'
    unfold Futex.unlock at hs'
    split at hs'
    case isTrue hcall =>
      obtain rfl := Option.some.inj hs'
      have hle := h.owners_le
      obtain ⟨x, hx⟩ : ∃ x, s.owners = [x] := by
        have := List.length_pos_of_mem hcall.2
        exact List.length_eq_one_iff.mp (by omega)
      have howner := hcall.2
      rw [hx, List.mem_singleton] at howner
      subst howner
      simp [hx, futexEvents, run, mutexStep]
    case isFalse => exact nomatch hs'

omit [DecidableEq τ] in
/-- A sleeper will be woken: by a thread that is awake, or by the owner, who sees it in the word. -/
theorem Futex.Inv.sleeper (h : Inv s) {w : τ} (hw : w ∈ s.waiters) :
    (∃ t, (s.place t).wakes = true) ∨ s.word = 2 ∧ ∃ owner, s.owners = [owner] := by
  obtain hword | hex := h.woken (List.ne_nil_of_mem hw)
  · obtain ⟨storing, hrole, hlen⟩ := h.taken
    rw [if_neg (by rw [hword]; decide)] at hlen
    cases storing with
    | nil => exact .inr ⟨hword, List.length_eq_one_iff.mp hlen⟩
    | cons t storing =>
      have ht : s.place t = .store := (hrole.mem t).mp List.mem_cons_self
      exact .inl ⟨t, by rw [ht]; rfl⟩
  · exact .inl hex

end Refinement

/-- Whatever the order of the steps of any number of threads, with signals and timeouts at any time,
the calls that return with the lock and the calls that give it back are those of a mutex, and each
thread that sleeps in the kernel has another one that wakes it or makes the exchange that has it
woken, or an owner whose `futex_unlock` is going to wake a thread. -/
theorem futex_refines_mutex (ops : List (FutexOp τ)) {s : Futex τ}
    (hrun : run futexStep ops Futex.init = some s) :
    run mutexStep (emitted futexStep futexEvents ops Futex.init) none = some s.owners.head? ∧
    s.owners.length ≤ 1 ∧
    ∀ w ∈ s.waiters, (∃ t, (s.place t).wakes = true) ∨
      s.word = 2 ∧ ∃ owner, s.owners = [owner] := by
  have hboth : run mutexStep (emitted futexStep futexEvents ops Futex.init) none =
      some s.owners.head? ∧ s.Inv :=
    @run_emits _ _ _ _ _ (fun log (s : Futex τ) =>
        run mutexStep log none = some s.owners.head? ∧ s.Inv)
      (fun log op s s' ⟨hlog, hs⟩ hs' => ⟨by
        rw [run_append, hlog]
        exact futexEvents_step hs hs', hs.step op hs'⟩) ops [] _ _ ⟨rfl, inv_init⟩ hrun
  exact ⟨hboth.1, hboth.2.owners_le, fun w hw => hboth.2.sleeper hw⟩

/-- Thread 0 has the lock when thread 1 wants it. -/
def sleepOps : List (FutexOp Nat) :=
  [.call 0 .lock, .advance 0, .advance 0, .call 1 .lockNospin, .advance 1, .advance 1, .advance 1]

/-- Thread 1 sleeps, and the owner sees it. -/
theorem futex_refines_mutex_asleep : ∃ s, run futexStep sleepOps Futex.init = some s ∧
    s.waiters = [1] ∧ s.word = 2 ∧ s.owners = [0] ∧ s.owners.length ≤ 1 := by
  obtain ⟨s, hrun, hs⟩ := Option.map_eq_some_iff.mp (show (run futexStep sleepOps Futex.init).map
    (fun s => (s.waiters, s.word, s.owners)) = some ([1], 2, [0]) by decide)
  obtain ⟨hwaiters, hrest⟩ := Prod.mk.inj hs
  obtain ⟨hword, howners⟩ := Prod.mk.inj hrest
  exact ⟨s, hrun, hwaiters, hword, howners, (futex_refines_mutex sleepOps hrun).2.1⟩

end Doppelganger.Locks
