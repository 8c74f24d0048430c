import Doppelganger.Lib.Roles
import Doppelganger.Lib.Run
import Mathlib.Tactic.Common

/-! The read-write mutex of `mutex.h`, which is two mutexes and a count of readers.  Each lock and
unlock of a mutex and each `xadd` of a thread is one step, and the steps of all threads come in any
order.  A writer is alone, also while it turns into a reader. -/

namespace Doppelganger.Locks

open Function Lib

/-- What a thread does next: nothing; the lock of `rb`, the `xadd`, the lock of `wq` and the unlock
of `rb` in `rdLock`; the unlock of `wq` by the last reader, in `rdUnlock` or in `upgrade`; the lock
of `rb`, that of `wq` and the unlock of `rb` in `wrLock`; the unlock of `wq` in `downgrade`.  A
thread that is `reading` or `writing` has the lock. -/
inductive RwPlace
  | idle
  | rdEnter
  | rdAdd
  | rdWait
  | rdExit
  | reading
  | rdLast (upgrade : Bool)
  | wrEnter
  | wrWait
  | wrExit
  | writing
  | downUnlock
deriving DecidableEq

/-- The thread is in a call. -/
def RwPlace.busy : RwPlace → Bool
  | .idle | .reading | .writing => false
  | _ => true

/-- Whether the mutexes `rb` and `wq` are taken, and the readers. -/
structure RwWords where
  rb : Bool
  wq : Bool
  readers : Nat

/-- What a thread may do: a call, up to its first step, or the next step of its call. -/
inductive RwCall
  | rdLock
  | rdUnlock (upgrade : Bool)
  | wrLock
  | wrUnlock
  | downgrade
  | advance

/-- A thread locks when it has nothing, and gives back what it has. -/
def RwCall.mayCall : RwCall → RwPlace → Bool
  | .rdLock, p | .wrLock, p => p = .idle
  | .rdUnlock _, p => p = .reading
  | .wrUnlock, p | .downgrade, p => p = .writing
  | .advance, p => p.busy

/-- After a `rdUnlock` that is alone, or in `upgrade`. -/
def afterUnlock (upgrade : Bool) : RwPlace := if upgrade then .wrEnter else .idle

/-- The next step of a call.  It waits while a mutex that it locks is taken, and fails when it
unlocks one that is free. -/
def rwAdvance : RwPlace → RwWords → Option (RwPlace × RwWords)
  | .rdEnter, w => some (if w.rb then (.rdEnter, w) else (.rdAdd, { w with rb := true }))
  | .rdAdd, w => some (if w.readers = 0 then .rdWait else .rdExit,
      { w with readers := w.readers + 1 })
  | .rdWait, w => some (if w.wq then (.rdWait, w) else (.rdExit, { w with wq := true }))
  | .rdExit, w => if w.rb then some (.reading, { w with rb := false }) else none
  | .rdLast upgrade, w =>
    if w.wq then some (afterUnlock upgrade, { w with wq := false }) else none
  | .wrEnter, w => some (if w.rb then (.wrEnter, w) else (.wrWait, { w with rb := true }))
  | .wrWait, w => some (if w.wq then (.wrWait, w) else (.wrExit, { w with wq := true }))
  | .wrExit, w => if w.rb then some (.writing, { w with rb := false }) else none
  | .downUnlock, w => if w.wq then some (.reading, { w with wq := false }) else none
  | .idle, _ | .reading, _ | .writing, _ => none

/-- `rdUnlock` up to its `xadd`, `wrUnlock`, `downgrade` up to its `xadd` and its assertion, and the
other calls. -/
def RwCall.act : RwCall → RwPlace → RwWords → Option (RwPlace × RwWords)
  | .rdLock, _, w => some (.rdEnter, w)
  | .wrLock, _, w => some (.wrEnter, w)
  | .rdUnlock upgrade, _, w =>
    some (if w.readers = 1 then .rdLast upgrade else afterUnlock upgrade,
      { w with readers := w.readers - 1 })
  | .wrUnlock, _, w => if w.wq then some (.idle, { w with wq := false }) else none
  | .downgrade, _, w =>
    if w.readers = 0 then some (.reading, { w with readers := 1 })
    else if w.readers = 1 then some (.downUnlock, { w with readers := 2 })
    else none
  | .advance, p, w => rwAdvance p w

/-- The words, and where the threads are. -/
structure RwMutex (τ : Type*) where
  words : RwWords
  place : τ → RwPlace

/-- The constructor. -/
def RwMutex.init {τ : Type*} : RwMutex τ := ⟨⟨false, false, 0⟩, fun _ => .idle⟩

/-- The thread waits for a mutex. -/
def RwWords.blocked (w : RwWords) : RwPlace → Bool
  | .rdEnter | .wrEnter => w.rb
  | .rdWait | .wrWait => w.wq
  | _ => false

/-- A thread, and what it does. -/
structure RwOp (τ : Type*) where
  thread : τ
  call : RwCall

variable {τ : Type*} [DecidableEq τ]

def rwStep (op : RwOp τ) (s : RwMutex τ) : Option (RwMutex τ) :=
  (op.call.act (s.place op.thread) s.words).map fun (p, words) =>
    ⟨words, update s.place op.thread p⟩

/-! ### The invariant -/

/-- The threads that have `wq` for themselves. -/
def alone (n : RwPlace → ℕ) : ℕ :=
  n (.rdLast true) + n (.rdLast false) + n .wrExit + n .writing + n .downUnlock

/-- The readers that share `wq`. -/
def sharing (n : RwPlace → ℕ) : ℕ := n .rdExit + n .reading

/-- The threads `n p` at each place `p`, for two mutexes and a count.  One thread has `rb`.  The
readers are counted.  `wq` is with one thread that is alone, or with the readers; when it is free,
the readers that are left have one in front of `wq`, as a writer that has turned into a reader
has. -/
structure Fits (n : RwPlace → ℕ) (w : RwWords) : Prop where
  rb : n .rdAdd + n .rdWait + n .rdExit + n .wrWait + n .wrExit = w.rb.toNat
  readers : n .rdWait + sharing n + n .downUnlock = w.readers
  one : alone n ≤ w.wq.toNat ∧ (0 < alone n → sharing n = 0)
  taken : 0 < w.wq.toNat → 0 < alone n ∨ 0 < sharing n ∧ n .rdWait = 0
  free : w.wq.toNat = 0 → 0 < sharing n → 0 < n .rdWait
  down : 0 < n .downUnlock → 0 < n .rdWait

/-- The census when a thread has gone from `p` to `q`. -/
def moved (n : RwPlace → ℕ) (p q k : RwPlace) : ℕ :=
  if p = q then n k else if k = q then n q + 1 else if k = p then n p - 1 else n k

variable {n : RwPlace → ℕ} {w : RwWords} {p : RwPlace}

theorem moved_self : moved n p p = n := funext fun _ => if_pos rfl

/-- The next step of a call does not fail. -/
theorem Fits.advance (h : Fits n w) (hpos : 0 < n p) (hbusy : p.busy = true) :
    ∃ q w', rwAdvance p w = some (q, w') ∧ Fits (moved n p q) w' := by
  have hwait : Fits (moved n p p) w := by rwa [moved_self]
  obtain ⟨hrb, hreaders, hone, htaken, hfree, hdown⟩ := h
  obtain ⟨rb, wq, readers⟩ := w
  have hrb' := Bool.toNat_le rb
  have hwq' := Bool.toNat_le wq
  unfold alone sharing at *
  cases p
  case idle | reading | writing => exact nomatch hbusy
  case' rdEnter | wrEnter =>
    cases rb
    case true => exact ⟨_, _, rfl, hwait⟩
    refine ⟨_, _, rfl, ?_⟩
  case' rdAdd =>
    -- nobody else is between the lock and the unlock of `rb`
    rcases readers with _ | readers
    all_goals refine ⟨_, _, rfl, ?_⟩
  case' rdWait | wrWait =>
    cases wq
    case true => exact ⟨_, _, rfl, hwait⟩
    refine ⟨_, _, rfl, ?_⟩
  case' rdExit | wrExit =>
    obtain rfl : rb = true := by
      cases rb <;> simp at hrb ⊢
      omega
    refine ⟨_, _, rfl, ?_⟩
  case' rdLast upgrade =>
    obtain rfl : wq = true := by
      cases wq <;> cases upgrade <;> simp at hone ⊢ <;> omega
    cases upgrade
    all_goals refine ⟨_, _, rfl, ?_⟩
  case' downUnlock =>
    obtain rfl : wq = true := by
      cases wq <;> simp at hone ⊢
      omega
    refine ⟨_, _, rfl, ?_⟩
  all_goals
    constructor <;> simp only [moved, alone, sharing, afterUnlock, reduceCtorEq, Bool.toNat_true,
      Bool.toNat_false, ↓reduceIte, RwPlace.rdLast.injEq, Bool.false_eq_true, true_implies,
      false_implies] at * <;> omega

/-- A call that may be made does not fail up to its first step. -/
theorem Fits.act (h : Fits n w) {call : RwCall} (hpos : 0 < n p) (hcall : call.mayCall p = true) :
    ∃ q w', call.act p w = some (q, w') ∧ Fits (moved n p q) w' := by
  cases call
  case advance => exact h.advance hpos hcall
  all_goals
    obtain rfl := of_decide_eq_true hcall
    obtain ⟨rb, wq, readers⟩ := w
    obtain ⟨hrb, hreaders, hone, htaken, hfree, hdown⟩ := h
    have hrb' := Bool.toNat_le rb
    have hwq' := Bool.toNat_le wq
    unfold alone sharing at *
  case' rdLock | wrLock => refine ⟨_, _, rfl, ?_⟩
  case' rdUnlock upgrade =>
    rcases eq_or_ne readers 1 with rfl | hlast
    all_goals cases upgrade
    case' inl.false | inl.true => refine ⟨_, _, rfl, ?_⟩
    case' inr.false | inr.true =>
      refine ⟨afterUnlock _, ⟨rb, wq, readers - 1⟩, by simp [RwCall.act, hlast]; rfl, ?_⟩
  case' wrUnlock =>
    obtain rfl : wq = true := by
      cases wq <;> simp at hone ⊢
      omega
    refine ⟨_, _, rfl, ?_⟩
  case' downgrade =>
    -- the readers are the one in front of `wq`, if there is one
    have hle : readers ≤ 1 := by simp at *; omega
    obtain rfl | rfl : readers = 0 ∨ readers = 1 := by omega
    all_goals refine ⟨_, _, rfl, ?_⟩
  all_goals
    constructor <;> simp only [moved, alone, sharing, afterUnlock, reduceCtorEq, Bool.toNat_true,
      Bool.toNat_false, ↓reduceIte, RwPlace.rdLast.injEq, Bool.false_eq_true, true_implies,
      false_implies] at * <;> omega

namespace RwMutex

variable {s : RwMutex τ} [Fintype τ]

/-- The census of the threads fits the words. -/
def Inv (s : RwMutex τ) : Prop := Fits (census s.place) s.words

omit [DecidableEq τ] in
theorem inv_init : Inv (init : RwMutex τ) := by
  have hzero (p : RwPlace) (hp : p ≠ .idle) : census (fun _ : τ => RwPlace.idle) p = 0 := by
    rw [census_const, if_neg hp]
  constructor <;> simp [init, alone, sharing, hzero]

theorem census_update {t : τ} {q : RwPlace} :
    census (update s.place t q) = moved (census s.place) (s.place t) q := by
  rcases eq_or_ne q (s.place t) with rfl | hq
  · rw [update_eq_self, moved_self]
  · funext k
    rw [census_move rfl hq, moved, if_neg hq.symm]

/-- What a thread may do succeeds. -/
theorem Inv.step (h : s.Inv) (op : RwOp τ) (hcall : op.call.mayCall (s.place op.thread) = true) :
    ∃ s', rwStep op s = some s' ∧ s'.Inv := by
  obtain ⟨q, words, hact, hfits⟩ := Fits.act h (census_pos rfl) hcall
  refine ⟨⟨words, update s.place op.thread q⟩, by rw [rwStep, hact]; rfl, ?_⟩
  rw [Inv, census_update]
  exact hfits

omit [DecidableEq τ] in
/-- The lock that a writer has is with nobody else, nor is it until a writer that turns into a
reader has given `wq` back. -/
theorem Inv.exclusive (h : s.Inv) {t u : τ} (hu : s.place u = .writing ∨ s.place u = .downUnlock)
    (hne : t ≠ u) :
    s.place t ≠ .writing ∧ s.place t ≠ .downUnlock ∧ s.place t ≠ .reading := by
  obtain ⟨hle, hsharing⟩ := h.one
  have hwq := Bool.toNat_le s.words.wq
  unfold alone sharing at *
  rcases hu with hu | hu
  all_goals
    have hpos := census_pos hu
    refine ⟨fun ht => ?_, fun ht => ?_, fun ht => ?_⟩
  case inl.refine_1 | inr.refine_2 => exact hne (eq_of_census_le (by omega) ht hu)
  all_goals
    have := census_pos ht
    omega

omit [DecidableEq τ] in
/-- Somebody has `wq`, and does not wait. -/
theorem Inv.owner (h : s.Inv) (hwq : s.words.wq = true) : ∃ u, s.place u = .reading ∨
    s.place u = .writing ∨ (s.place u).busy = true ∧ s.words.blocked (s.place u) = false := by
  have hsome : 0 < census s.place .rdExit ∨ 0 < census s.place .reading ∨
      0 < census s.place (.rdLast true) ∨ 0 < census s.place (.rdLast false) ∨
      0 < census s.place .wrExit ∨ 0 < census s.place .writing ∨
      0 < census s.place .downUnlock := by
    have := h.taken (by rw [hwq]; decide)
    unfold alone sharing at this
    omega
  simp only [census_pos_iff] at hsome
  rcases hsome with ⟨u, hu⟩ | ⟨u, hu⟩ | ⟨u, hu⟩ | ⟨u, hu⟩ | ⟨u, hu⟩ | ⟨u, hu⟩ | ⟨u, hu⟩
  case inr.inl => exact ⟨u, .inl hu⟩
  case inr.inr.inr.inr.inr.inl => exact ⟨u, .inr (.inl hu)⟩
  all_goals exact ⟨u, .inr (.inr (by rw [hu]; exact ⟨rfl, rfl⟩))⟩

omit [DecidableEq τ] in
/-- The calls do not all wait for each other. -/
theorem Inv.progress (h : s.Inv) {t : τ} (ht : (s.place t).busy = true) : ∃ u,
    s.place u = .reading ∨ s.place u = .writing ∨
    (s.place u).busy = true ∧ s.words.blocked (s.place u) = false := by
  by_cases hwq : s.words.wq = true
  case pos => exact h.owner hwq
  by_cases hblocked : s.words.blocked (s.place t) = false
  case pos => exact ⟨t, .inr (.inr ⟨ht, hblocked⟩)⟩
  -- `t` waits for `rb`, and the thread that has it does not wait for `wq`
  have hrb : s.words.rb = true := by
    unfold RwWords.blocked at hblocked
    split at hblocked <;> simp_all
  have hsome : 0 < census s.place .rdAdd ∨ 0 < census s.place .rdWait ∨
      0 < census s.place .rdExit ∨ 0 < census s.place .wrWait ∨ 0 < census s.place .wrExit := by
    have := h.rb
    rw [hrb, Bool.toNat_true] at this
    omega
  simp only [census_pos_iff] at hsome
  rcases hsome with ⟨u, hu⟩ | ⟨u, hu⟩ | ⟨u, hu⟩ | ⟨u, hu⟩ | ⟨u, hu⟩
  all_goals
    refine ⟨u, .inr (.inr ?_)⟩
    rw [hu]
    exact ⟨rfl, by simp [RwWords.blocked, hwq]⟩

end RwMutex

/-- Whatever the order in which threads take the lock, turn from one kind into the other and give
it back, the assertion of `downgrade` holds and no free mutex is unlocked; while a thread writes, or
is on its way from a writer to a reader, nobody else writes, is on that way or reads; and when a
thread is in a call, some thread has the lock or some call can go on. -/
theorem rw_mutex_safe [Fintype τ] (ops : List (RwOp τ))
    (hok : Along rwStep (fun op s => op.call.mayCall (s.place op.thread) = true) ops
      RwMutex.init) :
    ∃ s, run rwStep ops RwMutex.init = some s ∧
      (∀ t u, s.place u = .writing ∨ s.place u = .downUnlock → t ≠ u →
        s.place t ≠ .writing ∧ s.place t ≠ .downUnlock ∧ s.place t ≠ .reading) ∧
      ∀ t, (s.place t).busy = true → ∃ u, s.place u = .reading ∨ s.place u = .writing ∨
        (s.place u).busy = true ∧ s.words.blocked (s.place u) = false := by
  obtain ⟨s, hrun, hs⟩ := run_keeps (fun op s (hs : RwMutex.Inv s) hop => hs.step op hop) ops
    RwMutex.inv_init hok
  exact ⟨s, hrun, fun t u hu hne => hs.exclusive hu hne, fun t ht => hs.progress ht⟩

/-- The second thread comes to read while the first one writes, which then turns into a reader in
front of it; the third one waits to write. -/
def downgradeOps : List (RwOp (Fin 3)) :=
  [⟨0, .wrLock⟩, ⟨0, .advance⟩, ⟨0, .advance⟩, ⟨0, .advance⟩, ⟨1, .rdLock⟩, ⟨1, .advance⟩,
    ⟨1, .advance⟩, ⟨1, .advance⟩, ⟨2, .wrLock⟩, ⟨2, .advance⟩, ⟨0, .downgrade⟩, ⟨0, .advance⟩,
    ⟨1, .advance⟩, ⟨1, .advance⟩]

theorem rw_mutex_safe_downgrade : ∃ s, run rwStep downgradeOps RwMutex.init = some s ∧
    (s.place 0, s.place 1, s.place 2) = (.reading, .reading, .wrEnter) ∧
    ∀ t, s.place t = .writing → t = 0 := by
  obtain ⟨s, hrun, hsafe, -⟩ := rw_mutex_safe downgradeOps (by decide)
  have hplaces : (run rwStep downgradeOps RwMutex.init).map
      (fun s => (s.place 0, s.place 1, s.place 2)) = some (.reading, .reading, .wrEnter) := by
    decide
  rw [hrun] at hplaces
  have hplaces := Option.some.inj hplaces
  refine ⟨s, hrun, hplaces, fun t ht => ?_⟩
  by_contra hne
  exact (hsafe 0 t (.inl ht) (Ne.symm hne)).2.2 (Prod.mk.inj hplaces).1

end Doppelganger.Locks
