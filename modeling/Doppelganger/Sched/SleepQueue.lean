import Doppelganger.Sched.Queues

/-! What the scheduler keeps of its sleepers, whatever threads finish or hand over: the `sleepQueue`
is sorted, and holds those that sleep, each with a phase to come.  Here what its parts do with the
queues and the contexts. -/

namespace Doppelganger.Scheduling

open List ThreadState

namespace Scheduler

variable (s : Scheduler)

def wordOf (th : Nat) : Option UInt32 := (s.threads th).map (·.futexWord)

def markedOf (th : Nat) : Bool := (s.threads th).any (·.markedForSleep)

/-- The thread waits for a context. -/
def queuedUp (th : Nat) : Prop :=
  s.stateOf th = some QUEUED ∧ s.placeOf th = some .waiting ∧ s.wordOf th = some 1

variable {s} {th x cid : Nat} {t t' : ThreadInfo} {ctx : ContextInfo}

@[simp, grind =] theorem wordOf_setThread :
    (s.setThread th t).wordOf x = if x = th then some t.futexWord else s.wordOf x := by
  unfold wordOf setThread
  by_cases h : x = th <;> simp [h]

@[simp, grind =] theorem markedOf_setThread :
    (s.setThread th t).markedOf x = if x = th then t.markedForSleep else s.markedOf x := by
  unfold markedOf setThread
  by_cases h : x = th <;> simp [h]

@[simp, grind =] theorem wakeupOf_setThread :
    (s.setThread th t).wakeupOf x = if x = th then t.wakeupPhase else s.wakeupOf x := by
  unfold wakeupOf setThread
  by_cases h : x = th <;> simp [h]

@[simp, grind =] theorem wordOf_setContext : (s.setContext cid ctx).wordOf x = s.wordOf x := rfl

@[simp, grind =] theorem markedOf_setContext : (s.setContext cid ctx).markedOf x = s.markedOf x :=
  rfl

@[simp, grind =] theorem wakeupOf_setContext : (s.setContext cid ctx).wakeupOf x = s.wakeupOf x :=
  rfl

@[simp, grind =] theorem curPhase_setThread : (s.setThread th t).curPhase = s.curPhase := rfl

@[simp, grind =] theorem curPhase_setContext : (s.setContext cid ctx).curPhase = s.curPhase := rfl

/-- Between the parts of a step: `last` is the phase that each sleeper outlasts, `sleepers` are
threads that have to sleep on until their phases, and the threads `loose` are in no queue. -/
structure Sleeps (last phase : UInt64) (sleepers : Nat → UInt64 → Prop) (loose : List Nat)
    (s : Scheduler) : Prop where
  phase : s.curPhase = phase
  nodup : s.sleepQueue.Nodup
  run_nodup : s.runQueue.Nodup
  sorted : s.sleepQueue.Pairwise fun x y => s.wakeupOf x ≤ s.wakeupOf y
  sleep : ∀ x, x ∈ s.sleepQueue ↔ x ∉ loose ∧ s.stateOf x = some SLEEPING
  due : ∀ x, s.stateOf x = some SLEEPING →
    last < s.wakeupOf x ∧ s.wordOf x = some 1 ∧ s.markedOf x = false
  marked : ∀ x, s.markedOf x = true → s.placeOf x = some .elsewhere ∧ s.wordOf x = some 1 ∧
    (s.stateOf x = some RUNNING → last < s.wakeupOf x)
  placed : ∀ x, s.placedOn x → ∃ cid, s.cidOf x = some cid ∧ cid < s.numCores ∧
    (s.contexts cid).curThread = some x
  free : ∀ cid ∈ s.freeList, cid < s.numCores
  run : ∀ x ∈ s.runQueue, x ∉ loose ∧ s.queuedUp x
  handoff : ∀ v x, s.handoffOf v = some x → x ∉ loose ∧ x ∉ s.runQueue ∧ s.queuedUp x
  unique : ∀ v v' x, s.handoffOf v = some x → s.handoffOf v' = some x → v = v'
  fresh : ∀ x, s.nextThread ≤ x → s.threads x = none
  kept : ∀ x w, sleepers x w → s.stateOf x = some SLEEPING ∧ s.wakeupOf x = w

variable {last phase : UInt64} {sleepers : Nat → UInt64 → Prop} {loose : List Nat} {s' : Scheduler}

/-- The rest of what `Sleeps` sees of a thread. -/
theorem seenAsleep (h : s.threads th = some t) : s.wordOf th = some t.futexWord ∧
    s.markedOf th = t.markedForSleep ∧ s.wakeupOf th = t.wakeupPhase := by
  refine ⟨?_, ?_, ?_⟩
  · rw [wordOf, h, Option.map_some]
  · rw [markedOf, h, Option.any_some]
  · rw [wakeupOf, h, Option.map_some, Option.getD_some]

/-- A thread changes that does not fall asleep, wake up or get a context. -/
theorem Sleeps.set (h : Sleeps last phase sleepers loose s) (hthread : s.threads th = some t)
    (hsleep : t'.state = SLEEPING ↔ t.state = SLEEPING)
    (hdue : t.state = SLEEPING → t'.wakeupPhase = t.wakeupPhase ∧ t'.futexWord = 1 ∧
      t'.markedForSleep = false)
    (hmarked : t'.markedForSleep = true → t'.place = .elsewhere ∧ t'.futexWord = 1 ∧
      (t'.state = RUNNING → last < t'.wakeupPhase))
    (hplaced : t'.state = RUNNING ∨ t'.state = OUT →
      (t.state = RUNNING ∨ t.state = OUT) ∧ t'.cid = t.cid)
    (hqueued : th ∈ loose ∨ (t.state = QUEUED → t.place = .waiting → t.futexWord = 1 →
      t'.state = QUEUED ∧ t'.place = .waiting ∧ t'.futexWord = 1))
    (hhandoff : t'.handoffThread = t.handoffThread ∨ t'.handoffThread = none) :
    Sleeps last phase sleepers loose (s.setThread th t') := by
  have hseen := seen hthread
  obtain ⟨hword, hmark, hwakeup⟩ := seenAsleep hthread
  have hpl := placedOn_iff hthread
  have hqueued' : ∀ x, x ∉ loose → s.queuedUp x → (s.setThread th t').queuedUp x := by
    unfold queuedUp
    grind [hseen.state, hseen.place]
  have hhand : ∀ v x, (s.setThread th t').handoffOf v = some x → s.handoffOf v = some x := by
    grind [hseen.handoff]
  constructor
  case phase => exact h.phase
  case nodup => exact h.nodup
  case run_nodup => exact h.run_nodup
  case sorted =>
    refine h.sorted.imp_of_mem fun hx hy hle => ?_
    grind [h.sleep, hseen.state]
  case sleep => grind [h.sleep, hseen.state]
  case due => grind [h.due, hseen.state]
  case marked => grind [h.marked]
  case placed => grind [h.placed, hseen.cid]
  case free => exact h.free
  case run => exact fun x hx => ⟨(h.run x hx).1, hqueued' x (h.run x hx).1 (h.run x hx).2⟩
  case handoff =>
    intro v x hv
    obtain ⟨hloose, hrun, hup⟩ := h.handoff v x (hhand v x hv)
    exact ⟨hloose, hrun, hqueued' x hloose hup⟩
  case unique => exact fun v v' x hv hv' => h.unique v v' x (hhand v x hv) (hhand v' x hv')
  case fresh => exact fresh_setThread h.fresh hthread
  case kept => grind [h.kept, hseen.state]

theorem Sleeps.weaken {sleepers' : Nat → UInt64 → Prop} (h : Sleeps last phase sleepers loose s)
    (hsub : ∀ x w, sleepers' x w → sleepers x w) : Sleeps last phase sleepers' loose s :=
  { h with kept := fun x w hx => h.kept x w (hsub x w hx) }

/-! ### Queues and contexts -/

/-- The queues other than the `sleepQueue`, and the loose threads, change together. -/
theorem Sleeps.requeue (h : Sleeps last phase sleepers loose s) {free run out loose' : List Nat}
    (hfree : ∀ cid ∈ free, cid < s.numCores) (hnodup : run.Nodup)
    (hrun : ∀ x ∈ run, x ∉ loose' ∧ s.queuedUp x)
    (hhandoff : ∀ v x, s.handoffOf v = some x → x ∉ loose' ∧ x ∉ run)
    (hsleep : ∀ x, s.stateOf x = some SLEEPING → (x ∈ loose' ↔ x ∈ loose)) :
    Sleeps last phase sleepers loose'
      { s with freeList := free, runQueue := run, outQueue := out } :=
  { h with
    run_nodup := hnodup
    sleep := by
      intro x
      have hx := h.sleep x
      have hx' := hsleep x
      constructor
      · exact fun hmem => ⟨mt (hx' (hx.mp hmem).2).mp (hx.mp hmem).1, (hx.mp hmem).2⟩
      · exact fun hmem => hx.mpr ⟨mt (hx' hmem.2).mpr hmem.1, hmem.2⟩
    free := hfree
    run := hrun
    handoff := fun v x hv => ⟨(hhandoff v x hv).1, (hhandoff v x hv).2, (h.handoff v x hv).2.2⟩ }

theorem Sleeps.removeRun (h : Sleeps last phase sleepers [] s) (hs : s.removeRun th = some s') :
    Sleeps last phase sleepers [th] s' ∧ s'.markedOf th = false := by
  obtain ⟨q, hq, rfl⟩ := Option.map_eq_some_iff.mp hs
  obtain ⟨hmem, rfl⟩ := remove_eq_some.mp hq
  have hup := (h.run th hmem).2
  have hmark : s.markedOf th = false := by
    by_contra hmarked
    have hplace := (h.marked th ((Bool.not_eq_false _).mp hmarked)).1
    rw [hup.2.1] at hplace
    exact Place.noConfusion (Option.some.inj hplace)
  refine ⟨h.requeue h.free (h.run_nodup.erase th) ?_ ?_ ?_, hmark⟩
  · grind [h.run, h.run_nodup]
  · grind [h.handoff]
  · grind [hup.1]

/-- The part of the queue that is not of sleepers does not matter. -/
theorem Sleeps.removeOut (h : Sleeps last phase sleepers loose s) (hs : s.removeOut th = some s') :
    Sleeps last phase sleepers loose s' := by
  obtain ⟨q, hq, rfl⟩ := Option.map_eq_some_iff.mp hs
  exact h.requeue h.free h.run_nodup h.run
    (fun v x hv => ⟨(h.handoff v x hv).1, (h.handoff v x hv).2.1⟩) fun _ _ => Iff.rfl

theorem Sleeps.pushOut (h : Sleeps last phase sleepers loose s) (hs : s.pushOut th = some s') :
    Sleeps last phase sleepers loose s' := by
  obtain ⟨-, heq⟩ := Option.ite_none_left_eq_some.mp hs
  cases heq
  exact h.requeue h.free h.run_nodup h.run
    (fun v x hv => ⟨(h.handoff v x hv).1, (h.handoff v x hv).2.1⟩) fun _ _ => Iff.rfl

theorem Sleeps.removeFree (h : Sleeps last phase sleepers loose s) (hs : s.removeFree cid =
    some s') :
    Sleeps last phase sleepers loose s' ∧ cid < s.numCores := by
  obtain ⟨q, hq, rfl⟩ := Option.map_eq_some_iff.mp hs
  obtain ⟨hmem, rfl⟩ := remove_eq_some.mp hq
  exact ⟨h.requeue (fun c hc => h.free c (mem_of_mem_erase hc)) h.run_nodup h.run
    (fun v x hv => ⟨(h.handoff v x hv).1, (h.handoff v x hv).2.1⟩) fun _ _ => Iff.rfl,
    h.free cid hmem⟩

theorem Sleeps.pushFree (h : Sleeps last phase sleepers loose s) (hcid : cid < s.numCores)
    (hs : s.pushFree cid = some s') : Sleeps last phase sleepers loose s' := by
  obtain ⟨-, heq⟩ := Option.ite_none_left_eq_some.mp hs
  cases heq
  refine h.requeue ?_ h.run_nodup h.run
    (fun v x hv => ⟨(h.handoff v x hv).1, (h.handoff v x hv).2.1⟩) fun _ _ => Iff.rfl
  intro c hc
  obtain hc | hc := mem_append.mp hc
  · exact h.free c hc
  · rwa [mem_singleton.mp hc]

/-- A thread that waits for a context goes to the `runQueue`. -/
theorem Sleeps.pushRun (h : Sleeps last phase sleepers [th] s) (hup : s.queuedUp th)
    (hs : s.pushRun th = some s') : Sleeps last phase sleepers [] s' := by
  obtain ⟨howned, heq⟩ := Option.ite_none_left_eq_some.mp hs
  cases heq
  have hnot : th ∉ s.runQueue := by
    intro hmem
    simp [owned, hmem] at howned
  refine h.requeue h.free (nodup_append.mpr ⟨h.run_nodup, by simp, ?_⟩) ?_ ?_ ?_
  · grind
  · grind [h.run]
  · grind [h.handoff]
  · grind [hup.1]

/-- A thread that is in no queue and is not handed a context may be loose. -/
theorem Sleeps.loosen (h : Sleeps last phase sleepers [] s) (hrun : th ∉ s.runQueue)
    (hhandoff : ∀ v, s.handoffOf v ≠ some th) (hsleep : s.stateOf th ≠ some SLEEPING) :
    Sleeps last phase sleepers [th] s :=
  h.requeue h.free h.run_nodup (by grind [h.run]) (by grind [h.handoff]) (by grind)

theorem Sleeps.tighten (h : Sleeps last phase sleepers (th :: loose) s)
    (hsleep : s.stateOf th ≠ some SLEEPING) : Sleeps last phase sleepers loose s :=
  h.requeue h.free h.run_nodup (by grind [h.run]) (by grind [h.handoff]) (by grind)

theorem Sleeps.schedule (h : Sleeps last phase sleepers (th :: loose) s) (hcid : cid < s.numCores)
    (hmarked : s.markedOf th = false) (hs : s.schedule th cid = some s') :
    Sleeps last phase sleepers (th :: loose) s' ∧ s'.stateOf th = some RUNNING ∧
      (∀ x, s'.markedOf x = s.markedOf x) ∧ ∀ x, x ≠ th → s'.stateOf x = s.stateOf x := by
  obtain ⟨t, hthread, hs⟩ := Option.bind_eq_some_iff.mp hs
  obtain ⟨⟨hstate, -, hnone⟩, heq⟩ := Option.ite_none_right_eq_some.mp hs
  have hseen := seen hthread
  obtain ⟨hword, hmark, hwakeup⟩ := seenAsleep hthread
  have hpl := placedOn_iff hthread
  generalize ht' : { t with state := RUNNING, cid := cid } = t' at heq
  cases heq
  have hhand : ∀ v x, (s.setThread th t').handoffOf v = some x → s.handoffOf v = some x := by
    grind [hseen.handoff]
  have hqueued : ∀ x, x ∉ th :: loose → s.queuedUp x → (s.setThread th t').queuedUp x := by
    unfold queuedUp
    grind
  refine ⟨?_, by grind, by grind, by grind⟩
  constructor
  case phase => exact h.phase
  case nodup => exact h.nodup
  case run_nodup => exact h.run_nodup
  case sorted =>
    refine h.sorted.imp_of_mem fun hx hy hle => ?_
    grind [h.sleep]
  case sleep => grind [h.sleep, hseen.state]
  case due => grind [h.due]
  case marked => grind [h.marked]
  case placed =>
    intro x hx
    by_cases hxth : x = th
    · exact ⟨cid, by grind, hcid, by grind⟩
    · obtain ⟨c, hc, hlt, hcur⟩ := h.placed x (by grind)
      have hne : c ≠ cid := by
        rintro rfl
        rw [hnone] at hcur
        exact absurd hcur.symm (Option.some_ne_none _)
      exact ⟨c, by grind, hlt, by grind⟩
  case free => exact h.free
  case run => exact fun x hx => ⟨(h.run x hx).1, hqueued x (h.run x hx).1 (h.run x hx).2⟩
  case handoff =>
    intro v x hv
    obtain ⟨hloose, hrun, hup⟩ := h.handoff v x (hhand v x hv)
    exact ⟨hloose, hrun, hqueued x hloose hup⟩
  case unique => exact fun v v' x hv hv' => h.unique v v' x (hhand v x hv) (hhand v' x hv')
  case fresh => exact fresh_setThread h.fresh hthread
  case kept => grind [h.kept, hseen.state]

/-- A thread that loses its context, and whether it may then be asleep. -/
theorem Sleeps.deschedule {targetState : ThreadState} (h : Sleeps last phase sleepers loose s)
    (hs : s.deschedule th cid targetState = some s')
    (hsleep : targetState = SLEEPING →
      last < s.wakeupOf th ∧ s.wordOf th = some 1 ∧ s.markedOf th = false) :
    Sleeps last phase sleepers (th :: loose) s' ∧ s'.stateOf th = some targetState ∧
      (∀ x, s'.markedOf x = s.markedOf x) ∧ cid < s'.numCores ∧ s.placedOn th ∧
      ∀ x, x ≠ th → s'.stateOf x = s.stateOf x := by
  obtain ⟨t, hthread, hs⟩ := Option.bind_eq_some_iff.mp hs
  obtain ⟨⟨hstate, -, hcid, hcur, htarget⟩, heq⟩ := Option.ite_none_right_eq_some.mp hs
  have hseen := seen hthread
  obtain ⟨hword, hmark, hwakeup⟩ := seenAsleep hthread
  have hpl := placedOn_iff hthread
  have hcores : cid < s.numCores := by
    obtain ⟨c, hc, hlt, -⟩ := h.placed th (hpl.mpr hstate)
    rw [hseen.cid] at hc
    exact hcid ▸ Option.some.inj hc ▸ hlt
  generalize ht' : { t with state := targetState } = t' at heq
  cases heq
  have hhand : ∀ v x, (s.setThread th t').handoffOf v = some x → s.handoffOf v = some x := by
    grind [hseen.handoff]
  have hnot : ∀ x, s.queuedUp x → x ≠ th ∧ (s.setThread th t').queuedUp x := by
    unfold queuedUp
    grind [hseen.state]
  refine ⟨?_, by grind, by grind, hcores, hpl.mpr hstate, by grind⟩
  constructor
  case phase => exact h.phase
  case nodup => exact h.nodup
  case run_nodup => exact h.run_nodup
  case sorted =>
    refine h.sorted.imp_of_mem fun hx hy hle => ?_
    grind [h.sleep]
  case sleep => grind [h.sleep, hseen.state]
  case due => grind [h.due]
  case marked => grind [h.marked, hseen.place]
  case placed =>
    intro x hx
    have hxth : x ≠ th := by grind
    obtain ⟨c, hc, hlt, hcur'⟩ := h.placed x (by grind)
    have hne : c ≠ cid := by
      rintro rfl
      rw [hcur] at hcur'
      exact hxth (Option.some.inj hcur').symm
    exact ⟨c, by grind, hlt, by grind⟩
  case free => exact h.free
  case run =>
    intro x hx
    obtain ⟨hne, hup⟩ := hnot x (h.run x hx).2
    exact ⟨by grind [h.run], hup⟩
  case handoff =>
    intro v x hv
    obtain ⟨hloose, hrun, hup⟩ := h.handoff v x (hhand v x hv)
    obtain ⟨hne, hup'⟩ := hnot x hup
    exact ⟨by grind, hrun, hup'⟩
  case unique => exact fun v v' x hv hv' => h.unique v v' x (hhand v x hv) (hhand v' x hv')
  case fresh => exact fresh_setThread h.fresh hthread
  case kept => grind [h.kept, hseen.state]

/-- A loose thread that is not asleep is woken up. -/
theorem Sleeps.wakeup {needsJoin : Bool} (h : Sleeps last phase sleepers (th :: loose) s)
    (hstate : s.stateOf th ≠ some SLEEPING) (hmarked : s.markedOf th = false)
    (hs : s.wakeup th needsJoin = some s') : Sleeps last phase sleepers loose s' ∧
      (∀ x, s'.stateOf x = s.stateOf x) ∧ ∀ x, s'.markedOf x = s.markedOf x := by
  obtain ⟨t, hthread, hs⟩ := Option.bind_eq_some_iff.mp hs
  obtain ⟨-, heq⟩ := Option.ite_none_right_eq_some.mp hs
  cases heq
  have hseen := seen hthread
  obtain ⟨-, hmark, -⟩ := seenAsleep hthread
  have hstate' : t.state ≠ SLEEPING := fun heq => hstate (by rw [hseen.state, heq])
  have hset : Sleeps last phase sleepers (th :: loose)
      (s.setThread th { t with needsJoin := needsJoin, futexWord := 0 }) := by
    refine h.set hthread Iff.rfl (fun heq => absurd heq hstate') ?_ (fun hp => ⟨hp, rfl⟩)
      (Or.inl mem_cons_self) (Or.inl rfl)
    intro hm
    rw [hmark] at hmarked
    exact absurd (hmarked.symm.trans hm) Bool.false_ne_true
  refine ⟨hset.tighten ?_, ?_, ?_⟩
  · grind [hseen.state]
  · grind [hseen.state]
  · grind

/-- What goes behind all that is not greater leaves a list in order. -/
theorem insert_sorted (key : Nat → UInt64) (x : Nat) : ∀ {list : List Nat},
    (list.Pairwise fun a b => key a ≤ key b) →
    (list.takeWhile (fun cur => decide (key cur ≤ key x)) ++
      x :: list.drop (list.takeWhile fun cur => decide (key cur ≤ key x)).length).Pairwise
        fun a b => key a ≤ key b := by
  intro list
  induction list with
  | nil => simp
  | cons y list ih =>
    intro h
    obtain ⟨hy, hlist⟩ := pairwise_cons.mp h
    by_cases hle : key y ≤ key x
    · rw [takeWhile_cons_of_pos (by simpa using hle), length_cons, drop_succ_cons, cons_append,
        pairwise_cons]
      refine ⟨fun z hz => ?_, ih hlist⟩
      obtain hz | hz := mem_append.mp hz
      · exact hy z (takeWhile_subset _ hz)
      · obtain rfl | hz := mem_cons.mp hz
        · exact hle
        · exact hy z (mem_of_mem_drop hz)
    · rw [takeWhile_cons_of_neg (by simpa using hle), length_nil, drop_zero, nil_append,
        pairwise_cons]
      have hlt : key x ≤ key y := by grind
      refine ⟨fun z hz => ?_, h⟩
      obtain rfl | hz := mem_cons.mp hz
      · exact hlt
      · exact UInt64.le_trans hlt (hy z hz)

/-- A thread that sleeps takes its place in the `sleepQueue`. -/
theorem Sleeps.insertSleep (h : Sleeps last phase sleepers [th] s)
    (hstate : s.stateOf th = some SLEEPING) (hs : s.insertSleep th = some s') :
    Sleeps last phase sleepers [] s' := by
  obtain ⟨q, hq, hperm, hnot⟩ := insertSleep_perm hs
  obtain ⟨-, heq⟩ := Option.ite_none_left_eq_some.mp hs
  have hsorted := insert_sorted s.wakeupOf th h.sorted
  dsimp only at heq
  cases heq
  obtain rfl := (Scheduler.mk.inj hq).2.2.2.2.2.2.2.2.2.1
  exact { h with
    nodup := hperm.nodup_iff.mpr (nodup_cons.mpr ⟨hnot, h.nodup⟩)
    sorted := hsorted
    sleep := by
      intro x
      rw [hperm.mem_iff, mem_cons, h.sleep]
      change _ ↔ _ ∧ s.stateOf x = some SLEEPING
      grind
    run := fun x hx => ⟨not_mem_nil, (h.run x hx).2⟩
    handoff := fun v x hv => ⟨not_mem_nil, (h.handoff v x hv).2⟩ }

/-- A sleeper is taken out of the `sleepQueue` before its phase, and no longer has to sleep. -/
theorem Sleeps.removeSleep (h : Sleeps last phase sleepers [] s) (hthread : s.threads th = some t)
    (hs : s.removeSleep th = some s') :
    Sleeps last phase (fun x w => sleepers x w ∧ x ≠ th) []
      (s'.setThread th { t with state := BLOCKED }) := by
  obtain ⟨q, hq, rfl⟩ := Option.map_eq_some_iff.mp hs
  obtain ⟨hmem, rfl⟩ := remove_eq_some.mp hq
  have hseen := seen hthread
  obtain ⟨hword, hmark, hwakeup⟩ := seenAsleep hthread
  have hstate := ((h.sleep th).mp hmem).2
  have hdue := h.due th hstate
  generalize ht' : { t with state := BLOCKED } = t'
  have hblocked : t'.state = BLOCKED := by rw [← ht']
  have hmark' : t'.markedForSleep = false := by
    rw [← ht']
    exact hmark.symm.trans hdue.2.2
  have hhand' : t'.handoffThread = t.handoffThread := by rw [← ht']
  have hhand : ∀ v x, (s.setThread th t').handoffOf v = some x → s.handoffOf v = some x := by
    grind [hseen.handoff]
  have hqueued : ∀ x, s.queuedUp x → (s.setThread th t').queuedUp x := by
    unfold queuedUp
    grind
  constructor
  case phase => exact h.phase
  case nodup => exact h.nodup.erase th
  case run_nodup => exact h.run_nodup
  case sorted =>
    change (s.sleepQueue.erase th).Pairwise fun x y =>
      (s.setThread th t').wakeupOf x ≤ (s.setThread th t').wakeupOf y
    refine (h.sorted.sublist (erase_sublist)).imp_of_mem fun hx hy hle => ?_
    grind [h.nodup]
  case sleep =>
    intro x
    change x ∈ s.sleepQueue.erase th ↔ x ∉ [] ∧ (s.setThread th t').stateOf x = some SLEEPING
    grind [h.sleep, h.nodup]
  case due =>
    intro x hx
    change last < (s.setThread th t').wakeupOf x ∧ (s.setThread th t').wordOf x = some 1 ∧
      (s.setThread th t').markedOf x = false
    change (s.setThread th t').stateOf x = some SLEEPING at hx
    grind [h.due]
  case marked =>
    intro x hx
    change (s.setThread th t').markedOf x = true at hx
    have hne : x ≠ th := by grind
    obtain ⟨hplace, hone, hrunning⟩ := h.marked x (by grind)
    refine ⟨?_, ?_, ?_⟩
    · exact placeOf_setThread.trans (by rw [if_neg hne]; exact hplace)
    · exact wordOf_setThread.trans (by rw [if_neg hne]; exact hone)
    · change (s.setThread th t').stateOf x = _ → last < (s.setThread th t').wakeupOf x
      grind
  case placed =>
    intro x hx
    change (s.setThread th t').placedOn x at hx
    obtain ⟨cid, hcid, hlt, hcur⟩ := h.placed x (by grind)
    have hne : x ≠ th := by grind
    exact ⟨cid, cidOf_setThread.trans (by rw [if_neg hne]; exact hcid), hlt, hcur⟩
  case free => exact h.free
  case run => exact fun x hx => ⟨not_mem_nil, hqueued x (h.run x hx).2⟩
  case handoff =>
    intro v x hv
    obtain ⟨-, hrun, hup⟩ := h.handoff v x (hhand v x hv)
    exact ⟨not_mem_nil, hrun, hqueued x hup⟩
  case unique => exact fun v v' x hv hv' => h.unique v v' x (hhand v x hv) (hhand v' x hv')
  case fresh => exact fresh_setThread h.fresh hthread
  case kept =>
    rintro x w ⟨hx, hne⟩
    change (s.setThread th t').stateOf x = _ ∧ (s.setThread th t').wakeupOf x = w
    grind [h.kept]

/-- The context that is found for a thread is one of the cores. -/
theorem Sleeps.schedThread {ctx : Option Nat} (h : Sleeps last phase sleepers [th] s)
    (hplaced : ¬ s.placedOn th) (hs : s.schedThread th = some (s', ctx)) :
    Sleeps last phase sleepers [th] s' ∧ (∀ cid, ctx = some cid → cid < s'.numCores) ∧
      s'.stateOf th = s.stateOf th ∧ s'.markedOf th = s.markedOf th := by
  obtain ⟨t, hthread, hs⟩ := Option.bind_eq_some_iff.mp hs
  obtain ⟨-, hs⟩ := Option.ite_none_right_eq_some.mp hs
  have htake : ∀ {cid}, ((s.removeFree cid).map fun s => (s, some cid)) = some (s', ctx) →
      Sleeps last phase sleepers [th] s' ∧ (∀ cid, ctx = some cid → cid < s'.numCores) ∧
        s'.stateOf th = s.stateOf th ∧ s'.markedOf th = s.markedOf th := by
    intro cid htake
    obtain ⟨s1, hfree, hpair⟩ := Option.map_eq_some_iff.mp htake
    obtain ⟨rfl, rfl⟩ := Prod.mk.inj hpair
    obtain ⟨h1, hlt⟩ := h.removeFree hfree
    obtain ⟨q, -, rfl⟩ := Option.map_eq_some_iff.mp hfree
    exact ⟨h1, fun c hc => Option.some.inj hc ▸ hlt, rfl, rfl⟩
  split at hs
  case isTrue => exact htake hs
  case isFalse =>
    split at hs
    case h_1 => exact htake hs
    case h_2 =>
      split at hs
      case h_1 outTh hfind =>
        obtain ⟨o, hout, hs⟩ := Option.bind_eq_some_iff.mp hs
        obtain ⟨s1, hremove, hs⟩ := Option.bind_eq_some_iff.mp hs
        obtain ⟨s2, hdeschedule, hpair⟩ := Option.map_eq_some_iff.mp hs
        obtain ⟨rfl, rfl⟩ := Prod.mk.inj hpair
        obtain ⟨h2, hblocked, hmarked, hlt, hplaced', hsame⟩ :=
          (h.removeOut hremove).deschedule hdeschedule fun heq => ThreadState.noConfusion heq
        obtain ⟨q, -, rfl⟩ := Option.map_eq_some_iff.mp hremove
        have hne : th ≠ outTh := by
          rintro rfl
          exact hplaced hplaced'
        refine ⟨h2.tighten ?_, fun c hc => Option.some.inj hc ▸ hlt, hsame th hne, hmarked th⟩
        rw [hblocked]
        decide
      case h_2 =>
        obtain ⟨rfl, rfl⟩ := Prod.mk.inj (Option.some.inj hs)
        exact ⟨h, fun cid hcid => absurd hcid.symm (Option.some_ne_none _), rfl, rfl⟩

/-- A thread that waits for a context gets one. -/
theorem Sleeps.scheduleNext {inTh : Nat} (h : Sleeps last phase sleepers (inTh :: loose) s)
    (hcid : cid < s.numCores) (hmarked : s.markedOf inTh = false)
    (hs : ((s.schedule inTh cid).bind fun s => s.wakeup inTh false) = some s') :
    Sleeps last phase sleepers loose s' ∧ (∀ x, s'.markedOf x = s.markedOf x) ∧
      ∀ x, x ≠ inTh → s'.stateOf x = s.stateOf x := by
  obtain ⟨s1, hschedule, hwakeup⟩ := Option.bind_eq_some_iff.mp hs
  obtain ⟨h1, hrunning, hmarks1, hstates1⟩ := h.schedule hcid hmarked hschedule
  obtain ⟨h2, hstates2, hmarks2⟩ :=
    h1.wakeup (by rw [hrunning]; decide) ((hmarks1 inTh).trans hmarked) hwakeup
  exact ⟨h2, fun x => (hmarks2 x).trans (hmarks1 x),
    fun x hx => (hstates2 x).trans (hstates1 x hx)⟩

/-- The thread that is found for a context is taken out of the `runQueue`. -/
theorem Sleeps.schedContext {inTh : Option Nat} (h : Sleeps last phase sleepers [] s)
    (hs : s.schedContext cid = some (s', inTh)) :
    s'.threads = s.threads ∧ s'.contexts = s.contexts ∧ s'.numCores = s.numCores ∧
      match inTh with
      | some th => Sleeps last phase sleepers [th] s' ∧ s'.markedOf th = false
      | none => Sleeps last phase sleepers [] s' := by
  unfold Scheduler.schedContext at hs
  split at hs
  case h_1 th hfind =>
    obtain ⟨s1, hremove, hpair⟩ := Option.map_eq_some_iff.mp hs
    obtain ⟨rfl, rfl⟩ := Prod.mk.inj hpair
    have h1 := h.removeRun hremove
    obtain ⟨q, -, rfl⟩ := Option.map_eq_some_iff.mp hremove
    exact ⟨rfl, rfl, rfl, h1⟩
  case h_2 =>
    obtain ⟨rfl, rfl⟩ := Prod.mk.inj (Option.some.inj hs)
    exact ⟨rfl, rfl, rfl, h⟩

end Scheduler

end Doppelganger.Scheduling
