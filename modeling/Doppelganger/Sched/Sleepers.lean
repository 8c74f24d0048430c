import Doppelganger.Sched.SleepCalls

/-! The end of a phase wakes up the sleepers whose phase begins, and in every run in which no thread
is marked while it is asleep each is woken up then, or its sleep was ended before. -/

namespace Doppelganger.Scheduling

open List ThreadState

namespace Scheduler

variable {s s' : Scheduler} {th x cid : Nat} {t t' : ThreadInfo} {ctx : ContextInfo}
  {last phase : UInt64} {sleepers : Nat → UInt64 → Prop} {loose : List Nat}

/-! ### The end of a phase -/

theorem wakeup_setThread {needsJoin : Bool} (hword : t.futexWord = 1) :
    (s.setThread th t).wakeup th needsJoin =
      some ((s.setThread th t).setThread th { t with needsJoin := needsJoin, futexWord := 0 }) := by
  have hthread : (s.setThread th t).threads th = some t := Function.update_self _ _ _
  unfold Scheduler.wakeup
  rw [hthread, Option.bind_some, if_pos hword]

/-- One sleeper is woken up at its phase. -/
theorem Sleeps.wakeFirst {rest : List Nat} (h : Sleeps last phase sleepers [] s)
    (hqueue : s.sleepQueue = th :: rest) (hthread : s.threads th = some t) :
    ∃ s1, (s.setThread th { t with state := BLOCKED }).wakeup th false = some s1 ∧
      Sleeps last phase (fun x w => sleepers x w ∧ x ≠ th) [] { s1 with sleepQueue := rest } ∧
      (∀ x, s1.stateOf x = if x = th then some BLOCKED else s.stateOf x) ∧
      (∀ x, s1.wakeupOf x = s.wakeupOf x) ∧ ∀ x, s1.markedOf x = s.markedOf x := by
  have hmem : th ∈ s.sleepQueue := by rw [hqueue]; exact mem_cons_self
  have hseen := seen hthread
  obtain ⟨-, -, hwakeup⟩ := seenAsleep hthread
  have hstate : t.state = SLEEPING := by
    have hsleeping := ((h.sleep th).mp hmem).2
    rw [hseen.state] at hsleeping
    exact Option.some.inj hsleeping
  obtain ⟨-, hone, hunmarked⟩ := (h.thread hthread).1 hstate
  have hremove : s.removeSleep th = some { s with sleepQueue := rest } := by
    rw [Scheduler.removeSleep, remove_eq_some.mpr ⟨hmem, rfl⟩, hqueue, erase_cons_head,
      Option.map_some]
  have h1 := h.removeSleep hthread hremove
  refine ⟨_, wakeup_setThread hone, ?_, ?_, ?_, ?_⟩
  · exact h1.set (t := { t with state := BLOCKED }) (Function.update_self _ _ _) Iff.rfl (by grind)
      (by grind) (by grind) (by grind) (Or.inl rfl)
  · grind
  · grind
  · grind [seenAsleep hthread]

/-- The loop over the `sleepQueue` fails no assertion, and wakes up those whose phase it is. -/
theorem Sleeps.wakeSleepers (hnext : ∀ w, last < w → phase ≤ w) : ∀ {queue : List Nat}
    {s : Scheduler} {sleepers : Nat → UInt64 → Prop}, Sleeps last phase sleepers [] s →
    s.sleepQueue = queue → ∃ s', wakeSleepers queue s = some s' ∧
      Sleeps last phase (fun x w => sleepers x w ∧ phase < w) [] s' ∧
      (∀ x, s'.stateOf x = some SLEEPING → phase < s'.wakeupOf x) ∧
      (∀ x, s'.stateOf x = if s.stateOf x = some SLEEPING ∧ s.wakeupOf x = phase then some BLOCKED
        else s.stateOf x) ∧ ∀ x, s'.markedOf x = s.markedOf x := by
  intro queue
  induction queue with
  | nil =>
    intro s sleepers h hqueue
    have hnone : ∀ x, s.stateOf x ≠ some SLEEPING := by
      intro x hx
      have hmem := (h.sleep x).mpr ⟨not_mem_nil, hx⟩
      rw [hqueue] at hmem
      exact not_mem_nil hmem
    refine ⟨s, rfl, h.weaken fun x w hx => hx.1, fun x hx => absurd hx (hnone x), fun x => ?_,
      fun _ => rfl⟩
    rw [if_neg fun hx => hnone x hx.1]
  | cons th rest ih =>
    intro s sleepers h hqueue
    have hmem : th ∈ s.sleepQueue := by rw [hqueue]; exact mem_cons_self
    have hsleeping := ((h.sleep th).mp hmem).2
    obtain ⟨t, hthread, hstate⟩ := Option.map_eq_some_iff.mp hsleeping
    obtain ⟨-, -, hwakeup⟩ := seenAsleep hthread
    have hdue := hnext _ ((h.thread hthread).1 hstate).1
    have hsorted := h.sorted
    rw [hqueue] at hsorted
    unfold Scheduler.wakeSleepers
    rw [hthread, Option.bind_some, h.phase]
    by_cases hle : t.wakeupPhase ≤ phase
    · have heq : t.wakeupPhase = phase := UInt64.le_antisymm hle hdue
      rw [if_pos hle, if_pos heq]
      obtain ⟨s1, hwake, h1, hstates1, hwakeups1, hmarks1⟩ := h.wakeFirst hqueue hthread
      obtain ⟨s2, hloop, h2, hlater, hstates2, hmarks2⟩ := ih h1 rfl
      rw [hwake, Option.bind_some]
      refine ⟨s2, hloop, h2.weaken fun x w hx => ⟨⟨hx.1, ?_⟩, hx.2⟩, hlater, fun x => ?_, fun x =>
        (hmarks2 x).trans (hmarks1 x)⟩
      · rintro rfl
        have hw := (h.kept x w hx.1).2
        grind
      · have hx2 : s2.stateOf x = if s1.stateOf x = some SLEEPING ∧ s1.wakeupOf x = phase then
            some BLOCKED else s1.stateOf x := hstates2 x
        have hx1 := hstates1 x
        have hw1 := hwakeups1 x
        grind
    · rw [if_neg hle]
      have hlater : ∀ x, s.stateOf x = some SLEEPING → phase < s.wakeupOf x := by
        intro x hx
        have hx' := (h.sleep x).mpr ⟨not_mem_nil, hx⟩
        rw [hqueue] at hx'
        have hfirst : phase < s.wakeupOf th := by
          rw [hwakeup]
          exact UInt64.not_le.mp hle
        obtain rfl | hrest := mem_cons.mp hx'
        · exact hfirst
        · exact UInt64.lt_of_lt_of_le hfirst ((pairwise_cons.mp hsorted).1 x hrest)
      refine ⟨s, rfl, h.weaken fun x w hx => hx.1, hlater, fun x => ?_, fun _ => rfl⟩
      rw [if_neg]
      rintro ⟨hx, heq⟩
      exact UInt64.lt_irrefl _ (heq ▸ hlater x hx)

/-- A loose thread that waits for a context is handed one. -/
theorem Sleeps.giveHandoff {v : Nat} {tv : ThreadInfo} (h : Sleeps last phase sleepers [th] s)
    (hup : s.queuedUp th) (hv : s.threads v = some tv) :
    Sleeps last phase sleepers [] (s.setThread v { tv with handoffThread := some th }) := by
  have hseen := seen hv
  obtain ⟨hdue, hmarked⟩ := h.thread hv
  have hset : Sleeps last phase sleepers [] (s.setThread v { tv with handoffThread := none }) := by
    have hloose : Sleeps last phase sleepers [th] (s.setThread v { tv with handoffThread :=
      none }) :=
      h.set hv Iff.rfl (by grind) (by grind) (by grind) (by grind) (Or.inr rfl)
    refine hloose.tighten ?_
    grind [hup.1, hseen.state]
  have hqueued : ∀ x, s.queuedUp x →
      (s.setThread v { tv with handoffThread := some th }).queuedUp x := by
    unfold queuedUp
    grind [hseen.state, hseen.place, seenAsleep hv]
  have hnew : ∀ v' x, (s.setThread v { tv with handoffThread := some th }).handoffOf v' = some x →
      v' = v ∧ x = th ∨ v' ≠ v ∧ s.handoffOf v' = some x := by
    grind
  have hnone : ∀ v', s.handoffOf v' ≠ some th := fun v' hv' =>
    (h.handoff v' th hv').1 (mem_singleton_self th)
  exact {
    phase := hset.phase
    nodup := hset.nodup
    run_nodup := hset.run_nodup
    sorted := by
      have hsorted := hset.sorted
      simpa only [wakeupOf_setThread, sleepQueue_setThread] using hsorted
    sleep := by
      have hsleep := hset.sleep
      simpa only [stateOf_setThread, sleepQueue_setThread] using hsleep
    due := by
      have hdue' := hset.due
      simpa only [stateOf_setThread, wakeupOf_setThread, wordOf_setThread, markedOf_setThread]
        using hdue'
    marked := by
      have hmarked' := hset.marked
      simpa only [stateOf_setThread, wakeupOf_setThread, wordOf_setThread, markedOf_setThread,
        placeOf_setThread] using hmarked'
    placed := by
      have hplaced := hset.placed
      simpa only [placedOn_setThread, cidOf_setThread, numCores_setThread, contexts_setThread]
        using hplaced
    free := hset.free
    run := fun x hx => ⟨not_mem_nil, hqueued x (h.run x hx).2⟩
    handoff := by
      intro v' x hx
      obtain ⟨rfl, rfl⟩ | ⟨-, hold⟩ := hnew v' x hx
      · exact ⟨not_mem_nil, fun hmem => (h.run _ hmem).1 (mem_singleton_self _), hqueued _ hup⟩
      · obtain ⟨-, hrun, hup'⟩ := h.handoff v' x hold
        exact ⟨not_mem_nil, hrun, hqueued x hup'⟩
    unique := by
      intro v1 v2 x hx1 hx2
      obtain ⟨rfl, rfl⟩ | ⟨-, hold1⟩ := hnew v1 x hx1
      · obtain ⟨rfl, -⟩ | ⟨-, hold2⟩ := hnew v2 _ hx2
        · rfl
        · exact absurd hold2 (hnone v2)
      · obtain ⟨rfl, rfl⟩ | ⟨-, hold2⟩ := hnew v2 x hx2
        · exact absurd hold1 (hnone v1)
        · exact h.unique v1 v2 x hold1 hold2
    fresh := fresh_setThread h.fresh hv
    kept := by
      have hkept := hset.kept
      simpa only [stateOf_setThread, wakeupOf_setThread] using hkept }

theorem Sleeps.tickLoop : ∀ {queue avail : List Nat} {s : Scheduler},
    Sleeps last phase sleepers [] s → tickLoop queue avail s = some s' →
    Sleeps last phase sleepers [] s' ∧ ∀ x, s'.stateOf x = s.stateOf x := by
  intro queue
  induction queue with
  | nil =>
    intro _ s h hs
    obtain rfl := Option.some.inj hs
    exact ⟨h, fun _ => rfl⟩
  | cons th rest ih =>
    intro avail s h hs
    unfold Scheduler.tickLoop at hs
    split at hs
    case isTrue =>
      obtain rfl := Option.some.inj hs
      exact ⟨h, fun _ => rfl⟩
    case isFalse =>
      obtain ⟨t, hthread, hs⟩ := Option.bind_eq_some_iff.mp hs
      split at hs
      case h_2 => exact ih h hs
      case h_1 cid hfind =>
        obtain ⟨v, hcur, hs⟩ := Option.bind_eq_some_iff.mp hs
        obtain ⟨tv, hv, hs⟩ := Option.bind_eq_some_iff.mp hs
        obtain ⟨s1, hremove, hs⟩ := Option.bind_eq_some_iff.mp hs
        obtain ⟨q, hq, rfl⟩ := Option.map_eq_some_iff.mp hremove
        have hremove' : s.removeRun th = some { s with runQueue := q } := by
          rw [Scheduler.removeRun]
          exact congrArg (Option.map _) hq
        have hup : s.queuedUp th := (h.run th (remove_eq_some.mp hq).1).2
        have h1 := (h.removeRun hremove').1.giveHandoff hup hv
        obtain ⟨h2, hstates⟩ := ih h1 hs
        refine ⟨h2, fun x => (hstates x).trans ?_⟩
        change (s.setThread v { tv with handoffThread := some th }).stateOf x = s.stateOf x
        rw [stateOf_setThread]
        split
        case isTrue heq => rw [heq, (seen hv).state]
        case isFalse => rfl

/-- The state in which `endPhase` begins the loop over the `sleepQueue`. -/
def newPhase (s : Scheduler) : Scheduler := { s.release with curPhase := s.curPhase + 1 }

/-- A thread that is marked and runs keeps the phase from ending. -/
theorem Sleeps.notMarked (h : Sleeps last phase sleepers [] s) (hsynced : s.allSynced = true)
    (hmarked : s.markedOf x = true) : s.stateOf x ≠ some RUNNING := by
  intro hrunning
  obtain ⟨cid, hcid, hlt, hcur⟩ := h.placed x (Or.inl hrunning)
  obtain ⟨t, hthread, hstate⟩ := Option.map_eq_some_iff.mp hrunning
  have hplace := (h.marked x hmarked).1
  rw [(seen hthread).place] at hplace
  have hall := List.all_eq_true.mp hsynced cid (List.mem_range.mpr hlt)
  rw [hcur, Option.all_some, hthread, Option.all_some, hstate, Option.some.inj hplace] at hall
  exact absurd hall (by decide)

/-- The barrier lets a thread go on. -/
def freed (t : ThreadInfo) : ThreadInfo :=
  if t.place = .inSync then { t with place := .synced } else t

theorem freed_same (t : ThreadInfo) : (freed t).state = t.state ∧ (freed t).cid = t.cid ∧
    (freed t).futexWord = t.futexWord ∧ (freed t).markedForSleep = t.markedForSleep ∧
    (freed t).wakeupPhase = t.wakeupPhase ∧ (freed t).handoffThread = t.handoffThread ∧
    (t.place ≠ .inSync → (freed t).place = t.place) := by
  unfold freed
  split
  case isTrue hsync => exact ⟨rfl, rfl, rfl, rfl, rfl, rfl, fun hne => absurd hsync hne⟩
  case isFalse => exact ⟨rfl, rfl, rfl, rfl, rfl, rfl, fun _ => rfl⟩

theorem newPhase_threads (x : Nat) : s.newPhase.threads x = (s.threads x).map freed := rfl

/-- A thread is as before, except that it may have left `bar.sync`. -/
structure Released (s s' : Scheduler) (x : Nat) : Prop where
  state : s'.stateOf x = s.stateOf x
  cid : s'.cidOf x = s.cidOf x
  word : s'.wordOf x = s.wordOf x
  marked : s'.markedOf x = s.markedOf x
  wakeup : s'.wakeupOf x = s.wakeupOf x
  handoff : s'.handoffOf x = s.handoffOf x
  place : ∀ place, place ≠ .inSync → s.placeOf x = some place → s'.placeOf x = some place

theorem newPhase_released (s : Scheduler) (x : Nat) : Released s s.newPhase x := by
  have hnew := @newPhase_threads s x
  cases hthread : s.threads x with
  | none =>
    rw [hthread, Option.map_none] at hnew
    constructor
    case place =>
      intro place _ hplace
      rw [placeOf, hthread] at hplace
      cases hplace
    all_goals simp only [stateOf, cidOf, wordOf, markedOf, wakeupOf, handoffOf, hthread, hnew]
  | some t =>
    rw [hthread, Option.map_some] at hnew
    obtain ⟨hword, hmark, hwakeup⟩ := seenAsleep hthread
    obtain ⟨hword', hmark', hwakeup'⟩ := seenAsleep hnew
    obtain ⟨hstate, hcid, hwords, hmarks, hwakeups, hhandoff, hplace⟩ := freed_same t
    exact {
      state := by rw [(seen hnew).state, (seen hthread).state, hstate]
      cid := by rw [(seen hnew).cid, (seen hthread).cid, hcid]
      word := by rw [hword', hword, hwords]
      marked := by rw [hmark', hmark, hmarks]
      wakeup := by rw [hwakeup', hwakeup, hwakeups]
      handoff := by rw [(seen hnew).handoff, (seen hthread).handoff, hhandoff]
      place := by
        intro place hne heq
        rw [(seen hthread).place] at heq
        obtain rfl := Option.some.inj heq
        rw [(seen hnew).place, hplace hne] }

theorem Released.queuedUp (h : Released s s' x) (hup : s.queuedUp x) : s'.queuedUp x := by
  obtain ⟨hstate, hplace, hword⟩ := hup
  exact ⟨h.state.trans hstate, h.place _ (by decide) hplace, h.word.trans hword⟩

/-- The threads in `bar.sync` may go on, and the phase begins; nobody has been woken up yet. -/
theorem Sleeps.release (h : Sleeps last phase sleepers [] s) :
    Sleeps last (phase + 1) sleepers [] s.newPhase := by
  have hseen := newPhase_released s
  constructor
  case phase => exact congrArg (· + 1) h.phase
  case nodup => exact h.nodup
  case run_nodup => exact h.run_nodup
  case sorted =>
    refine h.sorted.imp fun {x y} hle => ?_
    rw [(hseen x).wakeup, (hseen y).wakeup]
    exact hle
  case sleep =>
    intro x
    rw [(hseen x).state]
    exact h.sleep x
  case due =>
    intro x hx
    rw [(hseen x).state] at hx
    rw [(hseen x).wakeup, (hseen x).word, (hseen x).marked]
    exact h.due x hx
  case marked =>
    intro x hx
    rw [(hseen x).marked] at hx
    obtain ⟨hplace, hword, hdue⟩ := h.marked x hx
    rw [(hseen x).state, (hseen x).wakeup, (hseen x).word]
    exact ⟨(hseen x).place _ (by decide) hplace, hword, hdue⟩
  case placed =>
    intro x hx
    unfold placedOn at hx
    rw [(hseen x).state] at hx
    rw [(hseen x).cid]
    exact h.placed x hx
  case free => exact h.free
  case run => exact fun x hx => ⟨not_mem_nil, (hseen x).queuedUp (h.run x hx).2⟩
  case handoff =>
    intro v x hv
    rw [(hseen v).handoff] at hv
    obtain ⟨-, hrun, hup⟩ := h.handoff v x hv
    exact ⟨not_mem_nil, hrun, (hseen x).queuedUp hup⟩
  case unique =>
    intro v v' x hv hv'
    rw [(hseen v).handoff] at hv
    rw [(hseen v').handoff] at hv'
    exact h.unique v v' x hv hv'
  case fresh =>
    intro x hx
    rw [newPhase_threads, h.fresh x hx, Option.map_none]
  case kept =>
    intro x w hx
    rw [(hseen x).state, (hseen x).wakeup]
    exact h.kept x w hx

/-- The loop over the `sleepQueue` in a state between two steps: no assertion fails. -/
theorem Sleeps.callback (h : Sleeps phase phase sleepers [] s) :
    ∃ s1, Scheduler.wakeSleepers s.sleepQueue s.newPhase = some s1 ∧
      Sleeps phase (phase + 1) (fun x w => sleepers x w ∧ phase + 1 < w) [] s1 ∧
      (∀ x, s1.stateOf x = some SLEEPING → phase + 1 < s1.wakeupOf x) ∧
      (∀ x, s1.stateOf x = if s.stateOf x = some SLEEPING ∧ s.wakeupOf x = phase + 1 then
        some BLOCKED else s.stateOf x) ∧ ∀ x, s1.markedOf x = s.markedOf x := by
  have hseen := newPhase_released s
  have hnext : ∀ w : UInt64, phase < w → phase + 1 ≤ w := by
    intro w hw
    rw [UInt64.lt_iff_toNat_lt] at hw
    rw [UInt64.le_iff_toNat_le, UInt64.toNat_add]
    have hlt := w.toNat_lt
    have hone : (1 : UInt64).toNat = 1 := rfl
    omega
  obtain ⟨s1, hloop, h1, hlater, hstates1, hmarks1⟩ := h.release.wakeSleepers hnext rfl
  refine ⟨s1, hloop, h1, hlater, fun x => ?_, fun x => (hmarks1 x).trans (hseen x).marked⟩
  rw [hstates1, (hseen x).state, (hseen x).wakeup]

/-- The end of a phase wakes up those whose phase begins, and no others. -/
theorem Sleeps.endPhase {avail : List Nat} (h : Sleeps phase phase sleepers [] s)
    (hs : s.endPhase avail = some s') :
    Sleeps (phase + 1) (phase + 1) (fun x w => sleepers x w ∧ phase + 1 < w) [] s' ∧
      ∀ x, s.stateOf x = some SLEEPING → s.wakeupOf x = phase + 1 → s'.stateOf x = some BLOCKED :=
        by
  obtain ⟨⟨hsynced, -⟩, hs⟩ := Option.ite_none_right_eq_some.mp hs
  obtain ⟨s1, hwake, hs⟩ := Option.bind_eq_some_iff.mp hs
  obtain ⟨s1', hloop, h1, hlater, hstates, hmarks⟩ := h.callback
  obtain rfl : s1 = s1' := Option.some.inj (hwake.symm.trans hloop)
  have h2 : Sleeps (phase + 1) (phase + 1) (fun x w => sleepers x w ∧ phase + 1 < w) [] s1 :=
    { h1 with
      due := fun x hx => ⟨hlater x hx, (h1.due x hx).2⟩
      marked := by
        intro x hx
        refine ⟨(h1.marked x hx).1, (h1.marked x hx).2.1, fun hrunning => absurd ?_
          (h.notMarked hsynced ((hmarks x).symm.trans hx))⟩
        rw [hstates] at hrunning
        grind }
  have hblocked : ∀ x, s.stateOf x = some SLEEPING → s.wakeupOf x = phase + 1 →
      s1.stateOf x = some BLOCKED := fun x hx hw => by
    rw [hstates, if_pos ⟨hx, hw⟩]
  split at hs
  case isTrue =>
    obtain ⟨h3, hsame⟩ := h2.tickLoop hs
    exact ⟨h3, fun x hx hw => (hsame x).trans (hblocked x hx hw)⟩
  case isFalse =>
    obtain rfl := Option.some.inj hs
    exact ⟨h2, hblocked⟩

end Scheduler

open Scheduler

/-! ### Runs -/

/-- A thread is not marked while it is asleep, and while it runs only for a phase to come. -/
def SleepOk : Op → Scheduler → Prop
  | .markForSleep gid wakeupPhase, s => ∀ t ∈ (s.gidMap gid).bind s.threads,
      t.state ≠ SLEEPING ∧ (t.state = RUNNING → s.curPhase < wakeupPhase)
  | _, _ => True

instance (op : Op) (s : Scheduler) : Decidable (SleepOk op s) :=
  match op with
  | .markForSleep gid wakeupPhase => inferInstanceAs (Decidable
    (∀ t ∈ (s.gidMap gid).bind s.threads,
      t.state ≠ SLEEPING ∧ (t.state = RUNNING → s.curPhase < wakeupPhase)))
  | .start .. | .finish .. | .finishLeave .. | .finishEnd .. | .join .. | .leave .. | .sync ..
  | .syncEnd .. | .waitEnd .. | .syscallLeave .. | .finishFakeLeave .. | .notifySleepEnd ..
  | .endPhase .. => isTrue trivial

/-- A step that ends the sleep of a thread before its phase. -/
def EndsSleep (op : Op) (s : Scheduler) (th : Nat) : Prop :=
  match op with
  | .join gid => s.gidMap gid = some th
  | .notifySleepEnd gid => s.gidMap gid = some th
  | _ => False

/-- The thread sleeps until the phase `wakeupPhase`. -/
def Scheduler.asleep (s : Scheduler) (th : Nat) (wakeupPhase : UInt64) : Prop :=
  s.stateOf th = some SLEEPING ∧ s.wakeupOf th = wakeupPhase

/-- What holds of the sleepers between two steps. -/
def Scheduler.Rests (s : Scheduler) : Prop := Sleeps s.curPhase s.curPhase s.asleep [] s

theorem Scheduler.Sleeps.rests {phase : UInt64} {sleepers : Nat → UInt64 → Prop} {s : Scheduler}
    (h : Sleeps phase phase sleepers [] s) : s.Rests := by
  have hphase := h.phase
  subst hphase
  exact { h with kept := fun _ _ hx => hx }

/-- Where no phase ends, sleepers sleep on unless their sleep is ended. -/
theorem Scheduler.Rests.step_inside {op : Op} {s s' : Scheduler} (h : s.Rests) (hok : SleepOk op s)
    (hop : ∀ avail, op ≠ .endPhase avail) (hs : step op s = some s') :
    Sleeps s.curPhase s.curPhase (fun x w => s.asleep x w ∧ ¬ EndsSleep op s x) [] s' := by
  have hweak : Sleeps s.curPhase s.curPhase (fun x w => s.asleep x w ∧ ¬ EndsSleep op s x) [] s :=
    h.weaken fun x w hx => hx.1
  cases op with
  | start gid mask => exact hweak.start hs
  | finish gid => exact hweak.finish hs
  | finishLeave th => exact hweak.finishLeave hs
  | finishEnd th => exact hweak.finishEnd hs
  | join gid => exact Sleeps.join h hs
  | leave cid => exact hweak.leaveSelf hs
  | sync cid => exact hweak.sync hs
  | syncEnd th => exact hweak.syncEnd hs
  | waitEnd th => exact hweak.waitEnd hs
  | syscallLeave cid => exact hweak.syscallLeave hs
  | finishFakeLeave th => exact hweak.finishFakeLeave hs
  | markForSleep gid wakeupPhase => exact hweak.markForSleep hok hs
  | notifySleepEnd gid => exact Sleeps.notifySleepEnd h hs
  | endPhase avail => exact absurd rfl (hop avail)

/-- In a step a sleeper sleeps on until a later phase, is woken up at its phase, or has its sleep
ended. -/
theorem Scheduler.Rests.next {op : Op} {s s' : Scheduler} {x : Nat} {w : UInt64} (h : s.Rests)
    (hok : SleepOk op s) (hs : step op s = some s') :
    s'.Rests ∧ (s.asleep x w → s'.asleep x w ∧ s'.curPhase < w ∨
      (∃ avail, op = .endPhase avail) ∧ s'.curPhase = w ∧ s'.stateOf x = some BLOCKED ∨
      EndsSleep op s x) := by
  by_cases hop : ∃ avail, op = .endPhase avail
  · obtain ⟨avail, rfl⟩ := hop
    obtain ⟨h', hblocked⟩ := Sleeps.endPhase h hs
    refine ⟨h'.rests, fun hx => ?_⟩
    by_cases hw : w = s.curPhase + 1
    · exact Or.inr (Or.inl ⟨⟨avail, rfl⟩, h'.phase.trans hw.symm, hblocked x hx.1 (hx.2.trans hw)⟩)
    · have hdue := (h.due x hx.1).1
      have hlater : s.curPhase + 1 < w := by
        rw [hx.2, UInt64.lt_iff_toNat_lt] at hdue
        rw [← UInt64.toNat_inj, UInt64.toNat_add] at hw
        rw [UInt64.lt_iff_toNat_lt, UInt64.toNat_add]
        have hlt := w.toNat_lt
        have hone : (1 : UInt64).toNat = 1 := rfl
        omega
      exact Or.inl ⟨h'.kept x w ⟨hx, hlater⟩, h'.phase ▸ hlater⟩
  · have h' := h.step_inside hok (fun avail heq => hop ⟨avail, heq⟩) hs
    refine ⟨h'.rests, fun hx => ?_⟩
    by_cases hends : EndsSleep op s x
    · exact Or.inr (Or.inr hends)
    · have hx' := h'.kept x w ⟨hx, hends⟩
      exact Or.inl ⟨hx', by rw [h'.phase, ← hx'.2]; exact (h'.due x hx'.1).1⟩

theorem init_rests (numCores : Nat) (schedQuantum : UInt64) :
    (init numCores schedQuantum).Rests where
  phase := rfl
  nodup := by simp [init]
  run_nodup := by simp [init]
  sorted := Pairwise.nil
  sleep := by simp [init, stateOf]
  due := by simp [init, stateOf]
  marked := by simp [init, markedOf]
  placed := by simp [init, placedOn, stateOf]
  free := fun cid hcid => List.mem_range.mp hcid
  run := by simp [init]
  handoff := by simp [init, handoffOf]
  unique := by simp [init, handoffOf]
  fresh := fun _ _ => rfl
  kept := fun _ _ hx => hx

/-- The `sleepQueue` between two steps; the loop over it at the end of a phase fails no assertion.
-/
structure Scheduler.Ordered (s : Scheduler) : Prop where
  sorted : s.sleepQueue.Pairwise fun x y => s.wakeupOf x ≤ s.wakeupOf y
  nodup : s.sleepQueue.Nodup
  sleepers : ∀ x, x ∈ s.sleepQueue ↔ s.stateOf x = some SLEEPING
  later : ∀ x ∈ s.sleepQueue, s.curPhase < s.wakeupOf x
  callback : ∃ s1, Scheduler.wakeSleepers s.sleepQueue s.newPhase = some s1

theorem Scheduler.Rests.ordered {s : Scheduler} (h : s.Rests) : s.Ordered where
  sorted := h.sorted
  nodup := h.nodup
  sleepers := fun x => (h.sleep x).trans (and_iff_right not_mem_nil)
  later := fun x hx => (h.due x ((h.sleep x).mp hx).2).1
  callback := by
    obtain ⟨s1, hloop, -⟩ := Sleeps.callback h
    exact ⟨s1, hloop⟩

/-- Along the steps `ops` from `s` to `s'`, a thread that sleeps until the phase `w` sleeps on, with
`w` still to come, or there is one step at which it stops to sleep: the one that begins the phase
`w`, or one that ends its sleep. -/
def WokenOnce (ops : List Op) (s s' : Scheduler) (x : Nat) (w : UInt64) : Prop :=
  s'.asleep x w ∧ s'.curPhase < w ∨
    ∃ before op after s1 s2, ops = before ++ op :: after ∧ Lib.run step before s = some s1 ∧
      s1.asleep x w ∧ s1.curPhase < w ∧ step op s1 = some s2 ∧
      ((∃ avail, op = .endPhase avail) ∧ s2.curPhase = w ∧ s2.stateOf x = some BLOCKED ∨
        EndsSleep op s1 x)

theorem Scheduler.Rests.wokenOnce {x : Nat} {w : UInt64} : ∀ {ops : List Op} {s s' : Scheduler},
    s.Rests → s.asleep x w → Lib.Along step SleepOk ops s → Lib.run step ops s = some s' →
    WokenOnce ops s s' x w := by
  intro ops
  induction ops with
  | nil =>
    intro s s' h hx _ hrun
    obtain rfl := Option.some.inj hrun
    exact Or.inl ⟨hx, hx.2 ▸ (h.due x hx.1).1⟩
  | cons op ops ih =>
    intro s s' h hx hok hrun
    obtain ⟨s1, hstep, hrest⟩ := Option.bind_eq_some_iff.mp hrun
    have hbefore : s.curPhase < w := hx.2 ▸ (h.due x hx.1).1
    obtain ⟨h1, hcases⟩ := @Scheduler.Rests.next op s s1 x w h hok.1 hstep
    obtain ⟨hx1, -⟩ | hwoken | hends := hcases hx
    · obtain hasleep | ⟨before, op', after, s2, s3, rfl, hbefore', hrest'⟩ :=
        ih h1 hx1 (hok.2 s1 hstep) hrest
      · exact Or.inl hasleep
      · refine Or.inr ⟨op :: before, op', after, s2, s3, rfl, ?_, hrest'⟩
        rw [Lib.run, hstep]
        exact hbefore'
    · exact Or.inr ⟨[], op, ops, s, s1, rfl, rfl, hx, hbefore, hstep, Or.inl hwoken⟩
    · exact Or.inr ⟨[], op, ops, s, s1, rfl, rfl, hx, hbefore, hstep, Or.inr hends⟩

/-- In a run in which no thread is marked while it is asleep, the `sleepQueue` is in order between
steps, and each sleeper is woken up once, at its phase, unless its sleep is ended before. -/
theorem run_sleepers {numCores : Nat} {schedQuantum : UInt64} {ops : List Op} {s : Scheduler}
    (hok : Lib.Along step SleepOk ops (init numCores schedQuantum))
    (hrun : Lib.run step ops (init numCores schedQuantum) = some s) :
    s.Ordered ∧ ∀ ops' s' x w, s.asleep x w → Lib.Along step SleepOk ops' s →
      Lib.run step ops' s = some s' → WokenOnce ops' s s' x w := by
  have hrests : s.Rests := Lib.run_preserves
    (fun op s s' h hok hs => (@Scheduler.Rests.next op s s' 0 0 h hok hs).1)
      (init_rests _ _) hok hrun
  exact ⟨hrests.ordered, fun ops' s' x w hx hok' hrun' => hrests.wokenOnce hx hok' hrun'⟩

/-- Two threads go to sleep, until the phases 5 and 7. -/
def twoSleepers : List Op :=
  [.start 0 [true, true], .join 0, .start 1 [true, true], .join 1, .markForSleep 0 5, .leave 0,
    .markForSleep 1 7, .leave 1]

theorem run_sleepers_two : ∃ s, Lib.run step twoSleepers (init 2 10) = some s ∧ s.Ordered ∧
    ∀ ops' s' x w, s.asleep x w → Lib.Along step SleepOk ops' s → Lib.run step ops' s = some s' →
      WokenOnce ops' s s' x w := by
  obtain ⟨s, hs⟩ := Option.isSome_iff_exists.mp
    (by decide +kernel : (Lib.run step twoSleepers (init 2 10)).isSome = true)
  exact ⟨s, hs, run_sleepers (by decide +kernel) hs⟩

/-- The first sleeper, interrupted, is marked again until the phase 9: the queue is out of order,
and when the phase 9 begins the assertion on the other sleeper fails. -/
theorem marked_asleep : ∃ s, Lib.run step (twoSleepers ++ [.markForSleep 0 9] ++
    List.replicate 8 (.endPhase [0, 1])) (init 2 10) = some s ∧
    s.sleepQueue.map s.wakeupOf = [9, 7] ∧
    ¬ ∃ s1, Scheduler.wakeSleepers s.sleepQueue s.newPhase = some s1 := by
  obtain ⟨s, hs⟩ := Option.isSome_iff_exists.mp (by decide +kernel :
    (Lib.run step (twoSleepers ++ [.markForSleep 0 9] ++ List.replicate 8 (.endPhase [0, 1]))
      (init 2 10)).isSome = true)
  have hqueue : (Lib.run step (twoSleepers ++ [.markForSleep 0 9] ++
      List.replicate 8 (.endPhase [0, 1])) (init 2 10)).map (fun s => s.sleepQueue.map s.wakeupOf) =
        some [9, 7] := by decide +kernel
  have hfails : (Lib.run step (twoSleepers ++ [.markForSleep 0 9] ++
      List.replicate 8 (.endPhase [0, 1])) (init 2 10)).map (fun s =>
        (Scheduler.wakeSleepers s.sleepQueue s.newPhase).isSome) =
      some false := by decide +kernel
  rw [hs] at hqueue hfails
  refine ⟨s, hs, Option.some.inj hqueue, fun ⟨s1, hwake⟩ => ?_⟩
  have hnone : (Scheduler.wakeSleepers s.sleepQueue s.newPhase).isSome = false :=
    Option.some.inj hfails
  rw [hwake] at hnone
  exact Bool.noConfusion hnone

end Doppelganger.Scheduling
