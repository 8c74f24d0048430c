import Doppelganger.Sched.SleepQueue

/-! The entry points of the scheduler keep its sleepers: `join` and `notifySleepEnd` end the sleep
of their thread, the others end none. -/

namespace Doppelganger.Scheduling

open List ThreadState

namespace Scheduler

variable {s s' : Scheduler} {th x cid : Nat} {t t' : ThreadInfo} {ctx : ContextInfo}
  {last phase : UInt64} {sleepers : Nat → UInt64 → Prop} {loose : List Nat}

/-- `leave`, by a thread that sleeps if it is marked for it. -/
theorem Sleeps.leave (h : Sleeps last phase sleepers [] s) (hs : s.leave cid = some s') :
    Sleeps last phase sleepers [] s' := by
  obtain ⟨th, hcur, hs⟩ := Option.bind_eq_some_iff.mp hs
  obtain ⟨t, hthread, hs⟩ := Option.bind_eq_some_iff.mp hs
  obtain ⟨hrunning, hs⟩ := Option.ite_none_left_eq_some.mp hs
  have hrunning := not_not.mp hrunning
  have hseen := seen hthread
  obtain ⟨hword, hmark, hwakeup⟩ := seenAsleep hthread
  split at hs
  case isTrue hmarked =>
    obtain ⟨s1, hdeschedule, hs⟩ := Option.bind_eq_some_iff.mp hs
    obtain ⟨s2, hinsert, hs⟩ := Option.bind_eq_some_iff.mp hs
    obtain ⟨⟨s3, inTh⟩, hcontext, hs⟩ := Option.bind_eq_some_iff.mp hs
    obtain ⟨hplace, hone, hdue⟩ := h.marked th (hmark.trans hmarked)
    have h0 : Sleeps last phase sleepers [] (s.setThread th { t with markedForSleep := false }) :=
      h.set hthread Iff.rfl (by grind) (by grind) (by grind) (by grind) (Or.inl rfl)
    have hlast := hdue (by rw [hseen.state, hrunning])
    obtain ⟨h1, hsleeping, -, hlt, -, -⟩ := h0.deschedule hdeschedule fun _ => by
      rw [wakeupOf_setThread, wordOf_setThread, markedOf_setThread, if_pos rfl, if_pos rfl,
        if_pos rfl]
      exact ⟨hwakeup ▸ hlast, hword.symm.trans hone, rfl⟩
    have h2 := h1.insertSleep hsleeping hinsert
    obtain ⟨-, -, hcores, h3⟩ := h2.schedContext hcontext
    have hlt2 : cid < s2.numCores := by
      obtain ⟨q, rfl, -, -⟩ := insertSleep_perm hinsert
      exact hlt
    cases inTh with
    | some inTh => exact (h3.1.scheduleNext (hcores ▸ hlt2) h3.2 hs).1
    | none => exact h3.pushFree (hcores ▸ hlt2) hs
  case isFalse hmarked =>
    obtain ⟨⟨s1, inTh⟩, hcontext, hs⟩ := Option.bind_eq_some_iff.mp hs
    obtain ⟨hthreads, -, -, h1⟩ := h.schedContext hcontext
    cases inTh with
    | some inTh =>
      obtain ⟨s2, hdeschedule, hs⟩ := Option.bind_eq_some_iff.mp hs
      obtain ⟨h2, hblocked, hmarks, hlt, -, -⟩ :=
        h1.1.deschedule hdeschedule fun heq => ThreadState.noConfusion heq
      have h3 := h2.tighten (by rw [hblocked]; decide)
      exact (h3.scheduleNext hlt ((hmarks inTh).trans h1.2) hs).1
    | none =>
      have hthread1 : s1.threads th = some t := by rw [hthreads, hthread]
      have hout : Sleeps last phase sleepers [] (s1.setThread th { t with state := OUT }) :=
        h1.set hthread1 (by grind) (by grind) (by grind) (by grind) (by grind) (Or.inl rfl)
      exact hout.pushOut hs

/-- What is known of a thread that sleeps or is marked. -/
theorem Sleeps.thread (h : Sleeps last phase sleepers loose s) (hthread : s.threads th = some t) :
    (t.state = SLEEPING → last < t.wakeupPhase ∧ t.futexWord = 1 ∧ t.markedForSleep = false) ∧
    (t.markedForSleep = true → t.place = .elsewhere ∧ t.futexWord = 1 ∧
      (t.state = RUNNING → last < t.wakeupPhase)) := by
  have hseen := seen hthread
  obtain ⟨hword, hmark, hwakeup⟩ := seenAsleep hthread
  have hdue := h.due th
  have hmarked := h.marked th
  rw [hseen.state, hword, hmark, hwakeup] at hdue hmarked
  rw [hseen.place] at hmarked
  simpa only [Option.some.injEq] using And.intro hdue hmarked

/-- A thread changes its place, or what it is about to do. -/
theorem Sleeps.setPlace (h : Sleeps last phase sleepers loose s) (hthread : s.threads th = some t)
    (hstate : t'.state = t.state ∧ t'.cid = t.cid ∧ t'.handoffThread = t.handoffThread)
    (hsleep : t'.futexWord = t.futexWord ∧ t'.markedForSleep = t.markedForSleep ∧
      t'.wakeupPhase = t.wakeupPhase)
    (hmarked : t.markedForSleep = true → t.place = .elsewhere → t'.place = .elsewhere)
    (hqueued : t.state = QUEUED → t.place = .waiting → t.futexWord = 1 → t'.place = .waiting) :
    Sleeps last phase sleepers loose (s.setThread th t') := by
  obtain ⟨hstate, hcid, hhandoff⟩ := hstate
  obtain ⟨hword, hmark, hwakeup⟩ := hsleep
  obtain ⟨hdue, hmarks⟩ := h.thread hthread
  apply h.set hthread
  case hsleep => rw [hstate]
  case hdue =>
    intro hsleeping
    rw [hword, hmark, hwakeup]
    exact ⟨rfl, (hdue hsleeping).2⟩
  case hmarked =>
    intro hm
    obtain ⟨hplace, hone, hlater⟩ := hmarks (hmark ▸ hm)
    rw [hstate, hword, hwakeup]
    exact ⟨hmarked (hmark ▸ hm) hplace, hone, hlater⟩
  case hplaced =>
    rw [hstate]
    exact fun hp => ⟨hp, hcid⟩
  case hqueued =>
    rw [hstate, hword]
    exact .inr fun hq hplace hone => ⟨hq, hqueued hq hplace hone, hone⟩
  case hhandoff => exact .inl hhandoff

/-- The thread ends. -/
def dropThread (s : Scheduler) (th : Nat) : Scheduler :=
  { s with threads := Function.update s.threads th none }

/-- A loose thread that does not sleep may end. -/
theorem Sleeps.dropThread (h : Sleeps last phase sleepers [th] s)
    (hsleep : s.stateOf th ≠ some SLEEPING) : Sleeps last phase sleepers [] (s.dropThread th) := by
  have hsame : ∀ x, x ≠ th → (s.dropThread th).threads x = s.threads x := fun x hx =>
    Function.update_of_ne hx _ _
  have hnone : (s.dropThread th).threads th = none := Function.update_self _ _ _
  have hstate : ∀ x, (s.dropThread th).stateOf x = if x = th then none else s.stateOf x := by
    grind [stateOf]
  have hplace : ∀ x, (s.dropThread th).placeOf x = if x = th then none else s.placeOf x := by
    grind [placeOf]
  have hword : ∀ x, (s.dropThread th).wordOf x = if x = th then none else s.wordOf x := by
    grind [wordOf]
  have hmark : ∀ x, (s.dropThread th).markedOf x = if x = th then false else s.markedOf x := by
    grind [markedOf]
  have hwakeup : ∀ x, x ≠ th → (s.dropThread th).wakeupOf x = s.wakeupOf x := by
    grind [wakeupOf]
  have hcid : ∀ x, x ≠ th → (s.dropThread th).cidOf x = s.cidOf x := by
    grind [cidOf]
  have hhand : ∀ v x, (s.dropThread th).handoffOf v = some x → s.handoffOf v = some x := by
    intro v x hv
    by_cases hvth : v = th
    · rw [hvth, handoffOf, hnone] at hv
      exact absurd hv.symm (Option.some_ne_none _)
    · rw [handoffOf, hsame v hvth] at hv
      exact hv
  have hqueued : ∀ x, x ∉ [th] → s.queuedUp x → (s.dropThread th).queuedUp x := by
    unfold queuedUp
    grind
  constructor
  case phase => exact h.phase
  case nodup => exact h.nodup
  case run_nodup => exact h.run_nodup
  case sorted =>
    refine h.sorted.imp_of_mem fun hx hy hle => ?_
    have hne := (h.sleep th).mp
    rw [hwakeup _ (fun heq => hsleep (hne (heq ▸ hx)).2), hwakeup _ fun heq =>
      hsleep (hne (heq ▸ hy)).2]
    exact hle
  case sleep =>
    intro x
    rw [hstate]
    change x ∈ s.sleepQueue ↔ _
    grind [h.sleep]
  case due => grind [h.due]
  case marked => grind [h.marked]
  case placed =>
    intro x hx
    unfold placedOn at hx
    rw [hstate] at hx
    have hne : x ≠ th := by grind
    rw [if_neg hne] at hx
    rw [hcid x hne]
    exact h.placed x hx
  case free => exact h.free
  case run => exact fun x hx => ⟨not_mem_nil, hqueued x (h.run x hx).1 (h.run x hx).2⟩
  case handoff =>
    intro v x hv
    obtain ⟨hloose, hrun, hup⟩ := h.handoff v x (hhand v x hv)
    exact ⟨not_mem_nil, hrun, hqueued x hloose hup⟩
  case unique => exact fun v v' x hv hv' => h.unique v v' x (hhand v x hv) (hhand v' x hv')
  case fresh =>
    intro x hx
    by_cases hxth : x = th
    · rw [hxth, hnone]
    · rw [hsame x hxth]
      exact h.fresh x hx
  case kept => grind [h.kept]

/-- A thread that is not queued up is in no queue of those that wait for a context. -/
theorem Sleeps.loosen' (h : Sleeps last phase sleepers [] s) (hqueued : s.stateOf th ≠ some QUEUED)
    (hsleep : s.stateOf th ≠ some SLEEPING) : Sleeps last phase sleepers [th] s := by
  refine h.loosen ?_ ?_ hsleep
  · exact fun hmem => hqueued (h.run th hmem).2.1
  · exact fun v hv => hqueued (h.handoff v th hv).2.2.1

/-- `finishRest` ends a thread that does not sleep. -/
theorem Sleeps.finishRest (h : Sleeps last phase sleepers [] s) (hs : s.finishRest th = some s') :
    Sleeps last phase sleepers [] s' := by
  obtain ⟨t, hthread, hs⟩ := Option.bind_eq_some_iff.mp hs
  obtain ⟨hstate, hs⟩ := Option.ite_none_right_eq_some.mp hs
  obtain ⟨s1, hout, rfl⟩ := Option.map_eq_some_iff.mp hs
  have hseen := (seen hthread).state
  split at hout
  case isTrue hqueued =>
    have h1 := (h.removeRun hout).1
    obtain ⟨q, -, rfl⟩ := Option.map_eq_some_iff.mp hout
    refine h1.dropThread ?_
    change s.stateOf th ≠ _
    rw [hseen, hqueued]
    decide
  case isFalse hqueued =>
    split at hout
    case isTrue =>
      obtain ⟨s2, hremove, hout⟩ := Option.bind_eq_some_iff.mp hout
      obtain ⟨s3, hdeschedule, hfree⟩ := Option.bind_eq_some_iff.mp hout
      obtain ⟨h3, hblocked, -, hlt, -, -⟩ :=
        (h.removeOut hremove).deschedule hdeschedule fun heq => ThreadState.noConfusion heq
      have h4 := h3.pushFree hlt hfree
      obtain ⟨-, heq⟩ := Option.ite_none_left_eq_some.mp hfree
      cases heq
      refine h4.dropThread ?_
      change s3.stateOf th ≠ _
      rw [hblocked]
      decide
    case isFalse =>
      obtain rfl := Option.some.inj hout
      refine (h.loosen' ?_ ?_).dropThread ?_
      · grind
      · grind
      · grind

/-- The map of the threads does not matter. -/
theorem Sleeps.unmap {gidMap : UInt32 → Option Nat} (h : Sleeps last phase sleepers loose s) :
    Sleeps last phase sleepers loose { s with gidMap := gidMap } :=
  { h with }

theorem Sleeps.finish {gid : UInt32} (h : Sleeps last phase sleepers [] s)
    (hs : s.finish gid = some s') : Sleeps last phase sleepers [] s' := by
  obtain ⟨th, hgid, hs⟩ := Option.bind_eq_some_iff.mp hs
  obtain ⟨t, hthread, hs⟩ := Option.bind_eq_some_iff.mp hs
  obtain ⟨-, hs⟩ := Option.ite_none_left_eq_some.mp hs
  have herased : Sleeps last phase sleepers []
      { s with gidMap := Function.update s.gidMap gid none } := h.unmap
  split at hs
  case isTrue =>
    obtain rfl := Option.some.inj hs
    exact herased.setPlace hthread ⟨rfl, rfl, rfl⟩ ⟨rfl, rfl, rfl⟩ (fun _ heq => heq)
      fun _ heq _ => heq
  case isFalse =>
    refine Sleeps.finishRest ?_ hs
    exact herased.setPlace hthread ⟨rfl, rfl, rfl⟩ ⟨rfl, rfl, rfl⟩ (fun _ heq => heq)
      fun _ heq _ => heq

theorem Sleeps.finishLeave (h : Sleeps last phase sleepers [] s) (hs : s.finishLeave th = some s') :
    Sleeps last phase sleepers [] s' := by
  obtain ⟨t, hthread, hs⟩ := Option.bind_eq_some_iff.mp hs
  obtain ⟨-, hs⟩ := Option.ite_none_right_eq_some.mp hs
  have hset : Sleeps last phase sleepers [] (s.setThread th { t with finishing := .left }) :=
    h.setPlace hthread ⟨rfl, rfl, rfl⟩ ⟨rfl, rfl, rfl⟩ (fun _ heq => heq)
      fun _ heq _ => heq
  exact hset.leave hs

/-- The end of a wait for a context. -/
theorem Sleeps.waitEnd (h : Sleeps last phase sleepers [] s) (hs : s.waitEnd th = some s') :
    Sleeps last phase sleepers [] s' := by
  obtain ⟨t, hthread, hs⟩ := Option.bind_eq_some_iff.mp hs
  obtain ⟨⟨hplace, hword, -⟩, heq⟩ := Option.ite_none_right_eq_some.mp hs
  cases heq
  exact h.setPlace hthread ⟨rfl, rfl, rfl⟩ ⟨rfl, rfl, rfl⟩ (by grind) (by grind)

theorem Sleeps.finishEnd (h : Sleeps last phase sleepers [] s) (hs : s.finishEnd th = some s') :
    Sleeps last phase sleepers [] s' := by
  obtain ⟨t, hthread, hs⟩ := Option.bind_eq_some_iff.mp hs
  exact h.finishRest (Option.ite_none_right_eq_some.mp hs).2

theorem Sleeps.leaveSelf (h : Sleeps last phase sleepers [] s) (hs : s.leaveSelf cid = some s') :
    Sleeps last phase sleepers [] s' := by
  obtain ⟨th, hcur, hs⟩ := Option.bind_eq_some_iff.mp hs
  obtain ⟨t, hthread, hs⟩ := Option.bind_eq_some_iff.mp hs
  exact h.leave (Option.ite_none_right_eq_some.mp hs).2

theorem Sleeps.sync (h : Sleeps last phase sleepers [] s) (hs : s.sync cid = some s') :
    Sleeps last phase sleepers [] s' := by
  obtain ⟨th, hcur, hs⟩ := Option.bind_eq_some_iff.mp hs
  obtain ⟨t, hthread, hs⟩ := Option.bind_eq_some_iff.mp hs
  obtain ⟨hguard, heq⟩ := Option.ite_none_right_eq_some.mp hs
  cases heq
  exact h.setPlace hthread ⟨rfl, rfl, rfl⟩ ⟨rfl, rfl, rfl⟩ (by grind) (by grind)

theorem Sleeps.syscallLeave (h : Sleeps last phase sleepers [] s)
    (hs : s.syscallLeave cid = some s') : Sleeps last phase sleepers [] s' := by
  obtain ⟨th, hcur, hs⟩ := Option.bind_eq_some_iff.mp hs
  obtain ⟨t, hthread, hs⟩ := Option.bind_eq_some_iff.mp hs
  obtain ⟨hguard, heq⟩ := Option.ite_none_right_eq_some.mp hs
  cases heq
  exact h.setPlace hthread ⟨rfl, rfl, rfl⟩ ⟨rfl, rfl, rfl⟩ (fun _ heq => heq)
      fun _ heq _ => heq

theorem Sleeps.finishFakeLeave (h : Sleeps last phase sleepers [] s)
    (hs : s.finishFakeLeave th = some s') : Sleeps last phase sleepers [] s' := by
  obtain ⟨t, hthread, hs⟩ := Option.bind_eq_some_iff.mp hs
  obtain ⟨hguard, heq⟩ := Option.ite_none_right_eq_some.mp hs
  cases heq
  exact h.setPlace hthread ⟨rfl, rfl, rfl⟩ ⟨rfl, rfl, rfl⟩ (fun _ heq => heq)
      fun _ heq _ => heq

/-- A thread that is not asleep is marked, and while it runs for a phase to come. -/
theorem Sleeps.markForSleep {gid : UInt32} {wakeupPhase : UInt64}
    (h : Sleeps last phase sleepers [] s)
    (hok : ∀ t ∈ (s.gidMap gid).bind s.threads,
      t.state ≠ SLEEPING ∧ (t.state = RUNNING → last < wakeupPhase))
    (hs : s.markForSleep gid wakeupPhase = some s') : Sleeps last phase sleepers [] s' := by
  obtain ⟨th, hgid, hs⟩ := Option.bind_eq_some_iff.mp hs
  obtain ⟨t, hthread, hs⟩ := Option.bind_eq_some_iff.mp hs
  obtain ⟨hguard, heq⟩ := Option.ite_none_right_eq_some.mp hs
  cases heq
  have hmark := hok t (by rw [hgid, Option.bind_some, hthread]; rfl)
  exact h.set hthread Iff.rfl (by grind) (by grind) (by grind) (by grind) (Or.inl rfl)

theorem Sleeps.notifySleepEnd {gid : UInt32} (h : Sleeps last phase sleepers [] s)
    (hs : s.notifySleepEnd gid = some s') :
    Sleeps last phase (fun x w => sleepers x w ∧ s.gidMap gid ≠ some x) [] s' := by
  obtain ⟨th, hgid, hs⟩ := Option.bind_eq_some_iff.mp hs
  obtain ⟨t, hthread, hs⟩ := Option.bind_eq_some_iff.mp hs
  obtain ⟨-, hs⟩ := Option.ite_none_left_eq_some.mp hs
  split at hs
  case isTrue =>
    obtain rfl := Option.some.inj hs
    exact h.weaken fun x w hx => hx.1
  case isFalse =>
    obtain ⟨-, hs⟩ := Option.ite_none_right_eq_some.mp hs
    obtain ⟨s1, hremove, rfl⟩ := Option.map_eq_some_iff.mp hs
    refine (h.removeSleep hthread hremove).weaken fun x w hx => ⟨hx.1, fun heq => hx.2 ?_⟩
    exact heq ▸ hgid

/-- A new thread takes a place that no thread has. -/
theorem Sleeps.add (h : Sleeps last phase sleepers [] s) (hnone : s.threads th = none)
    (hlt : th < s.nextThread) (hstate : t.state = STARTED) (hmarked : t.markedForSleep = false)
    (hhandoff : t.handoffThread = none) : Sleeps last phase sleepers [] (s.setThread th t) := by
  have hother : ∀ x, s.stateOf x ≠ none → x ≠ th := by
    rintro x hx rfl
    rw [stateOf, hnone] at hx
    exact hx rfl
  have hmarks : ∀ x, s.markedOf x = true → x ≠ th := by
    rintro x hx rfl
    rw [markedOf, hnone] at hx
    exact Bool.false_ne_true hx
  have hhand : ∀ v x, (s.setThread th t).handoffOf v = some x → s.handoffOf v = some x := by
    grind
  have hqueued : ∀ x, s.queuedUp x → (s.setThread th t).queuedUp x := by
    unfold queuedUp
    grind
  constructor
  case phase => exact h.phase
  case nodup => exact h.nodup
  case run_nodup => exact h.run_nodup
  case sorted =>
    refine h.sorted.imp_of_mem fun hx hy hle => ?_
    grind [h.sleep]
  case sleep => grind [h.sleep]
  case due => grind [h.due]
  case marked => grind [h.marked]
  case placed => grind [h.placed, placedOn]
  case free => exact h.free
  case run => exact fun x hx => ⟨not_mem_nil, hqueued x (h.run x hx).2⟩
  case handoff =>
    intro v x hv
    obtain ⟨-, hrun, hup⟩ := h.handoff v x (hhand v x hv)
    exact ⟨not_mem_nil, hrun, hqueued x hup⟩
  case unique => exact fun v v' x hv hv' => h.unique v v' x (hhand v x hv) (hhand v' x hv')
  case fresh =>
    intro x hx
    have hne : x ≠ th := Nat.ne_of_gt (Nat.lt_of_lt_of_le hlt hx)
    exact (Function.update_of_ne hne _ _).trans (h.fresh x hx)
  case kept => grind [h.kept]

theorem Sleeps.start {gid : UInt32} {mask : List Bool} (h : Sleeps last phase sleepers [] s)
    (hs : s.start gid mask = some s') : Sleeps last phase sleepers [] s' := by
  obtain ⟨-, heq⟩ := Option.ite_none_right_eq_some.mp hs
  cases heq
  have hmapped : Sleeps last phase sleepers [] { s with
      nextThread := s.nextThread + 1
      gidMap := Function.update s.gidMap gid (some s.nextThread) } :=
    { h with fresh := fun x hx => h.fresh x (Nat.le_of_succ_le hx) }
  exact hmapped.add (h.fresh s.nextThread (Nat.le_refl _)) (Nat.lt_succ_self _) rfl rfl rfl

/-- A thread that found no context waits for one. -/
theorem Sleeps.enqueue (h : Sleeps last phase sleepers [th] s) (hqueued : s.stateOf th =
    some QUEUED)
    (hmarked : s.markedOf th = false)
    (hs : ((s.pushRun th).bind fun s => s.waitForContext th) = some s') :
    Sleeps last phase sleepers [] s' := by
  obtain ⟨s1, hpush, hwait⟩ := Option.bind_eq_some_iff.mp hs
  obtain ⟨howned, heq⟩ := Option.ite_none_left_eq_some.mp hpush
  cases heq
  obtain ⟨t, hthread, rfl⟩ := Option.map_eq_some_iff.mp hwait
  have hthread : s.threads th = some t := hthread
  have hseen := seen hthread
  obtain ⟨hword, hmark, hwakeup⟩ := seenAsleep hthread
  have hset : Sleeps last phase sleepers [th]
      (s.setThread th { t with futexWord := 1, place := .waiting }) :=
    h.set hthread Iff.rfl (by grind [hseen.state]) (by grind) (by grind [hseen.state])
      (Or.inl (mem_singleton_self th)) (Or.inl rfl)
  have hup : (s.setThread th { t with futexWord := 1, place := .waiting }).queuedUp th := by
    unfold queuedUp
    grind [hseen.state]
  exact hset.pushRun hup (if_neg howned)

/-- A thread that is not placed looks for a context, and waits if there is none. -/
theorem Sleeps.place (h : Sleeps last phase sleepers [th] s) (hplaced : ¬ s.placedOn th)
    (hmarked : s.markedOf th = false) {ctx : Option Nat} {s1 : Scheduler}
    (hs : s.schedThread th = some (s1, ctx)) :
    Sleeps last phase sleepers [th] s1 ∧ s1.markedOf th = false ∧ s1.stateOf th = s.stateOf th ∧
      ∀ cid s', ctx = some cid → s1.schedule th cid = some s' → Sleeps last phase sleepers [] s' :=
        by
  obtain ⟨h1, hctx, hstate, hmark⟩ := h.schedThread hplaced hs
  refine ⟨h1, hmark.trans hmarked, hstate, fun cid s' hcid hschedule => ?_⟩
  obtain ⟨h2, hrunning, -, -⟩ := h1.schedule (hctx cid hcid) (hmark.trans hmarked) hschedule
  refine h2.tighten ?_
  rw [hrunning]
  decide

theorem Sleeps.join {gid : UInt32} (h : Sleeps last phase sleepers [] s)
    (hs : s.join gid = some s') :
    Sleeps last phase (fun x w => sleepers x w ∧ s.gidMap gid ≠ some x) [] s' := by
  obtain ⟨th, hgid, hs⟩ := Option.bind_eq_some_iff.mp hs
  obtain ⟨t, hthread, hs⟩ := Option.bind_eq_some_iff.mp hs
  obtain ⟨hdue, hmarked⟩ := h.thread hthread
  have hweak : Sleeps last phase (fun x w => sleepers x w ∧ s.gidMap gid ≠ some x) [] s :=
    h.weaken fun x w hx => hx.1
  obtain ⟨-, hs⟩ := Option.ite_none_left_eq_some.mp hs
  split at hs
  case isTrue =>
    obtain ⟨-, heq⟩ := Option.ite_none_right_eq_some.mp hs
    cases heq
    exact hweak.setPlace hthread ⟨rfl, rfl, rfl⟩ ⟨rfl, rfl, rfl⟩ (fun _ heq => heq)
      fun _ heq _ => heq
  case isFalse =>
    obtain ⟨hunmarked, hs⟩ := Option.ite_none_left_eq_some.mp hs
    split at hs
    case isTrue hout =>
      refine Sleeps.removeOut ?_ hs
      exact hweak.set hthread (by grind) (by grind) (by grind) (by grind) (by grind) (Or.inl rfl)
    case isFalse hout =>
      obtain ⟨s1, hawake, hs⟩ := Option.bind_eq_some_iff.mp hs
      obtain ⟨⟨s2, ctx⟩, hcontext, hs⟩ := Option.bind_eq_some_iff.mp hs
      have hawake' : Sleeps last phase (fun x w => sleepers x w ∧ s.gidMap gid ≠ some x) [] s1 ∧
          (s1.stateOf th = some BLOCKED ∨ s1.stateOf th = some STARTED) ∧
          s1.markedOf th = false := by
        split at hawake
        case isTrue =>
          obtain ⟨s0, hremove, rfl⟩ := Option.map_eq_some_iff.mp hawake
          refine ⟨(h.removeSleep hthread hremove).weaken
            fun x w hx => ⟨hx.1, fun heq => hx.2 (heq ▸ hgid)⟩, ?_, ?_⟩
          · grind
          · grind
        case isFalse =>
          obtain ⟨hstate, heq⟩ := Option.ite_none_right_eq_some.mp hawake
          cases heq
          have hseen := seen hthread
          obtain ⟨-, hmark, -⟩ := seenAsleep hthread
          refine ⟨hweak, ?_, ?_⟩
          · grind [hseen.state]
          · grind
      obtain ⟨h1, hstate1, hmarked1⟩ := hawake'
      have hloose : Sleeps last phase (fun x w => sleepers x w ∧ s.gidMap gid ≠ some x) [th] s1 :=
        h1.loosen' (by grind) (by grind)
      have hplaced : ¬ s1.placedOn th := by
        unfold placedOn
        grind
      obtain ⟨h2, hmarked2, hstate2, hschedule⟩ := hloose.place hplaced hmarked1 hcontext
      cases ctx with
      | some cid => exact hschedule cid s' rfl hs
      | none =>
        obtain ⟨t2, hthread2, hs⟩ := Option.bind_eq_some_iff.mp hs
        have hseen2 := seen hthread2
        obtain ⟨-, hmark2, -⟩ := seenAsleep hthread2
        have hstate' : t2.state = BLOCKED ∨ t2.state = STARTED := by
          rw [← hstate2, hseen2.state] at hstate1
          simpa only [Option.some.injEq] using hstate1
        have hunmarked2 : t2.markedForSleep = false := hmark2.symm.trans hmarked2
        have hset : Sleeps last phase (fun x w => sleepers x w ∧ s.gidMap gid ≠ some x) [th]
            (s2.setThread th { t2 with state := QUEUED }) :=
          h2.set hthread2 (by grind) (by grind) (by grind) (by grind)
            (Or.inl (mem_singleton_self th)) (Or.inl rfl)
        exact hset.enqueue (by grind) (by grind) hs

theorem Sleeps.loose_congr {loose' : List Nat} (h : Sleeps last phase sleepers loose s)
    (hloose : ∀ x, x ∈ loose ↔ x ∈ loose') : Sleeps last phase sleepers loose' s :=
  { h with
    sleep := by simpa only [hloose] using h.sleep
    run := by simpa only [hloose] using h.run
    handoff := by simpa only [hloose] using h.handoff }

/-- `syncEnd`, with a handoff of the context or without. -/
theorem Sleeps.syncEnd (h : Sleeps last phase sleepers [] s) (hs : s.syncEnd th = some s') :
    Sleeps last phase sleepers [] s' := by
  obtain ⟨t, hthread, hs⟩ := Option.bind_eq_some_iff.mp hs
  obtain ⟨hguard, hs⟩ := Option.ite_none_left_eq_some.mp hs
  obtain ⟨hdue, hmarked⟩ := h.thread hthread
  have hseen := seen hthread
  obtain ⟨-, hmark, -⟩ := seenAsleep hthread
  split at hs
  case h_1 hnone =>
    cases hs
    exact h.set hthread Iff.rfl (by grind) (by grind) (by grind) (by grind) (Or.inl rfl)
  case h_2 dst hdst =>
    obtain ⟨s2, hdeschedule, hs⟩ := Option.bind_eq_some_iff.mp hs
    have hhand : s.handoffOf th = some dst := hseen.handoff.trans hdst
    obtain ⟨-, hrun, hup⟩ := h.handoff th dst hhand
    have h1 : Sleeps last phase sleepers []
        (s.setThread th { t with handoffThread := none, place := .elsewhere }) :=
      h.set hthread Iff.rfl (by grind) (by grind) (by grind) (by grind) (Or.inr rfl)
    have hne : dst ≠ th := by
      rintro rfl
      obtain ⟨t1, hthread1, hcond⟩ := Option.bind_eq_some_iff.mp hdeschedule
      obtain ⟨⟨hplaced, -⟩, -⟩ := Option.ite_none_right_eq_some.mp hcond
      have heq : t1 = { t with handoffThread := none, place := .elsewhere } := by
        simpa [setThread] using hthread1.symm
      have hqueued := hseen.state.symm.trans hup.1
      grind
    have hmarkdst : s.markedOf dst = false := by
      by_contra hm
      have hplace := (h.marked dst ((Bool.not_eq_false _).mp hm)).1
      rw [hup.2.1] at hplace
      exact Place.noConfusion (Option.some.inj hplace)
    have h1' : Sleeps last phase sleepers [dst]
        (s.setThread th { t with handoffThread := none, place := .elsewhere }) := by
      refine h1.loosen hrun (fun v hv => ?_) (by grind [hup.1])
      have hvth : v ≠ th := by grind
      exact hvth (h.unique v th dst (by grind) hhand)
    obtain ⟨h2, hqueued, hmarks, hlt, -, hstates⟩ :=
      h1'.deschedule hdeschedule fun heq => ThreadState.noConfusion heq
    have h2' : Sleeps last phase sleepers [dst, th] s2 := h2.loose_congr (by grind)
    obtain ⟨s3, hschedule, hs⟩ := Option.bind_eq_some_iff.mp hs
    obtain ⟨s4, hwakeup, hs⟩ := Option.bind_eq_some_iff.mp hs
    have hnext : ((s2.schedule dst t.cid).bind fun s => s.wakeup dst false) = some s4 := by
      rw [hschedule]
      exact hwakeup
    obtain ⟨h4, hmarks4, hstates4⟩ := h2'.scheduleNext hlt (by grind) hnext
    obtain ⟨⟨s5, ctx⟩, hcontext, hs⟩ := Option.bind_eq_some_iff.mp hs
    have hqueued4 : s4.stateOf th = some QUEUED := (hstates4 th hne.symm).trans hqueued
    have hmark4 : s4.markedOf th = false := by
      rw [hmarks4, hmarks, markedOf_setThread, if_pos rfl]
      grind
    have hplaced4 : ¬ s4.placedOn th := by
      unfold placedOn
      grind
    obtain ⟨h5, hmark5, hstate5, hplace5⟩ := h4.place hplaced4 hmark4 hcontext
    cases ctx with
    | some cid => exact hplace5 cid s' rfl hs
    | none => exact h5.enqueue (hstate5.trans hqueued4) hmark5 hs

end Scheduler

end Doppelganger.Scheduling
