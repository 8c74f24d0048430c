import Doppelganger.Sched.Entries
import Mathlib.Data.List.Nodup

/-! What holds in every reachable state of the scheduler: the lists and maps are exact, `schedTick`
has a victim when it needs one, and no handoff is lost. -/

namespace Doppelganger.Scheduling

open List ThreadState

namespace Scheduler

variable {s s' : Scheduler} {th x cid : Nat} {gid : UInt32} {t t' : ThreadInfo}

/-! ### A queued thread stays queued until it runs -/

/-- The thread waits for a context, or has one and runs. -/
def waits (s : Scheduler) (th : Nat) : Prop :=
  s.stateOf th = some QUEUED ∨ s.stateOf th = some RUNNING

theorem waits_setThread (h : s.waits x)
    (ht : x = th → t.state = QUEUED ∨ t.state = RUNNING) : (s.setThread th t).waits x := by
  unfold waits at *
  grind

theorem waits_removeRun (h : s.waits x) (hs : s.removeRun th = some s') : s'.waits x := by
  obtain ⟨q, -, rfl⟩ := Option.map_eq_some_iff.mp hs
  exact h

theorem waits_pushRun (h : s.waits x) (hs : s.pushRun th = some s') : s'.waits x := by
  obtain ⟨-, heq⟩ := Option.ite_none_left_eq_some.mp hs
  cases heq
  exact h

theorem waits_removeOut (h : s.waits x) (hs : s.removeOut th = some s') : s'.waits x := by
  obtain ⟨q, -, rfl⟩ := Option.map_eq_some_iff.mp hs
  exact h

theorem waits_insertSleep (h : s.waits x) (hs : s.insertSleep th = some s') : s'.waits x := by
  obtain ⟨q, rfl, -⟩ := insertSleep_perm hs
  exact h

theorem waits_schedule (h : s.waits x) (hs : s.schedule th cid = some s') : s'.waits x := by
  unfold waits at *
  rw [stateOf_schedule hs]
  grind

theorem waits_deschedule {targetState : ThreadState} (h : s.waits x)
    (hs : s.deschedule th cid targetState = some s') (hne : x = th → targetState = QUEUED) :
    s'.waits x := by
  unfold waits at *
  rw [stateOf_deschedule hs]
  grind

theorem waits_wakeup {needsJoin : Bool} (h : s.waits x) (hs : s.wakeup th needsJoin = some s') :
    s'.waits x := by
  unfold waits at *
  rwa [stateOf_wakeup hs]

theorem waits_waitForContext (h : s.waits x) (hs : s.waitForContext th = some s') :
    s'.waits x := by
  obtain ⟨t, hthread, rfl⟩ := Option.map_eq_some_iff.mp hs
  apply waits_setThread h
  rintro rfl
  simpa [waits, (seen hthread).state] using h

/-- `schedThread` blocks at most a thread that is out. -/
theorem waits_schedThread {ctx : Option Nat} (h : s.waits x)
    (hout : x ∉ s.outQueue) (hs : s.schedThread th = some (s', ctx)) : s'.waits x := by
  obtain ⟨cid, -, hs1, -⟩ | ⟨outTh, o, s1, -, hmem, -, hs1, hs2, -⟩ | ⟨-, rfl, -⟩ :=
    schedThread_cases hs
  · obtain ⟨q, -, rfl⟩ := Option.map_eq_some_iff.mp hs1
    exact h
  · apply waits_deschedule (waits_removeOut h hs1) hs2
    rintro rfl
    exact absurd hmem hout
  · exact h

theorem waits_leave (h : s.waits x) (hs : s.leave cid = some s')
    (hne : (s.contexts cid).curThread ≠ some x) : s'.waits x := by
  obtain ⟨th, hcur, hs⟩ := Option.bind_eq_some_iff.mp hs
  obtain ⟨t, hthread, hs⟩ := Option.bind_eq_some_iff.mp hs
  have hne : x ≠ th := fun heq => hne (heq ▸ hcur)
  obtain ⟨-, hs⟩ := Option.ite_none_left_eq_some.mp hs
  split at hs
  · obtain ⟨s1, hs1, hs⟩ := Option.bind_eq_some_iff.mp hs
    obtain ⟨s2, hs2, hs⟩ := Option.bind_eq_some_iff.mp hs
    obtain ⟨⟨s3, inTh⟩, hs3, hs⟩ := Option.bind_eq_some_iff.mp hs
    have h1 := waits_deschedule (waits_setThread h fun heq => absurd heq hne) hs1
      fun heq => absurd heq hne
    have h2 := waits_insertSleep h1 hs2
    obtain ⟨inTh, rfl, hs3, -⟩ | ⟨rfl, rfl, -⟩ := schedContext_cases hs3
    · dsimp only at hs
      obtain ⟨s4, hs4, hwake⟩ := Option.bind_eq_some_iff.mp hs
      exact waits_wakeup (waits_schedule (waits_removeRun h2 hs3) hs4) hwake
    · obtain ⟨-, heq⟩ := Option.ite_none_left_eq_some.mp hs
      cases heq
      exact h2
  · obtain ⟨⟨s1, inTh⟩, hs1, hs⟩ := Option.bind_eq_some_iff.mp hs
    obtain ⟨inTh, rfl, hs1, -⟩ | ⟨rfl, rfl, -⟩ := schedContext_cases hs1
    · dsimp only at hs
      obtain ⟨s2, hs2, hs⟩ := Option.bind_eq_some_iff.mp hs
      obtain ⟨s3, hs3, hwake⟩ := Option.bind_eq_some_iff.mp hs
      have h2 := waits_deschedule (waits_removeRun h hs1) hs2 fun heq => absurd heq hne
      exact waits_wakeup (waits_schedule h2 hs3) hwake
    · obtain ⟨-, heq⟩ := Option.ite_none_left_eq_some.mp hs
      cases heq
      exact waits_setThread h fun heq => absurd heq hne

theorem waits_finishRest (h : s.waits x) (hqueue : x ∉ s.runQueue)
    (hrunning : s.stateOf x ≠ some RUNNING) (hs : s.finishRest th = some s') : s'.waits x := by
  obtain ⟨t, hthread, hs⟩ := Option.bind_eq_some_iff.mp hs
  obtain ⟨hstate, hs⟩ := Option.ite_none_right_eq_some.mp hs
  obtain ⟨s1, hs1, rfl⟩ := Option.map_eq_some_iff.mp hs
  have hqueued := h.resolve_right hrunning
  have hne : x ≠ th := by
    rintro rfl
    have hstate : t.state = QUEUED := Option.some.inj ((seen hthread).state.symm.trans hqueued)
    rw [if_pos hstate] at hs1
    obtain ⟨q, hq, -⟩ := Option.map_eq_some_iff.mp hs1
    exact hqueue (remove_eq_some.mp hq).1
  have h1 : s1.waits x := by
    split at hs1
    · exact waits_removeRun h hs1
    · split at hs1
      · obtain ⟨s2, hs2, hs1⟩ := Option.bind_eq_some_iff.mp hs1
        obtain ⟨s3, hs3, hs1⟩ := Option.bind_eq_some_iff.mp hs1
        obtain ⟨-, heq⟩ := Option.ite_none_left_eq_some.mp hs1
        have h3 := waits_deschedule (waits_removeOut h hs2) hs3 fun heq => absurd heq hne
        cases heq
        exact h3
      · cases hs1
        exact h
  simpa [waits, stateOf, hne] using h1

theorem waits_wakeSleepers {queue : List Nat} (h : s.waits x)
    (hqueue : x ∉ queue) (hs : wakeSleepers queue s = some s') : s'.waits x := by
  induction queue generalizing s with
  | nil =>
    cases hs
    exact h
  | cons th rest ih =>
    rw [List.mem_cons, not_or] at hqueue
    obtain ⟨hne, hqueue⟩ := hqueue
    obtain ⟨t, hthread, hs⟩ := Option.bind_eq_some_iff.mp hs
    split at hs
    · obtain ⟨-, hs⟩ := Option.ite_none_right_eq_some.mp hs
      obtain ⟨s1, hs1, hs⟩ := Option.bind_eq_some_iff.mp hs
      have h1 := waits_wakeup (waits_setThread h fun heq => absurd heq hne) hs1
      exact ih (s := { s1 with sleepQueue := rest }) h1 hqueue hs
    · cases hs
      exact h

theorem waits_tickLoop {queue avail : List Nat} (h : s.waits x)
    (hs : tickLoop queue avail s = some s') : s'.waits x := by
  induction queue generalizing s avail with
  | nil =>
    cases hs
    exact h
  | cons th rest ih =>
    unfold tickLoop at hs
    split at hs
    · cases hs
      exact h
    · obtain ⟨t, hthread, hs⟩ := Option.bind_eq_some_iff.mp hs
      split at hs
      · obtain ⟨v, hcur, hs⟩ := Option.bind_eq_some_iff.mp hs
        obtain ⟨victim, hvictim, hs⟩ := Option.bind_eq_some_iff.mp hs
        obtain ⟨s1, hs1, hs⟩ := Option.bind_eq_some_iff.mp hs
        apply ih _ hs
        apply waits_removeRun _ hs1
        apply waits_setThread h
        rintro rfl
        simpa [waits, (seen hvictim).state] using h
      · exact ih h hs

theorem waits_join (h : s.stateOf x = some QUEUED) (hout : x ∉ s.outQueue)
    (hs : s.join gid = some s') : s'.waits x := by
  obtain ⟨th, -, hs⟩ := Option.bind_eq_some_iff.mp hs
  obtain ⟨t, hthread, hs⟩ := Option.bind_eq_some_iff.mp hs
  have hth : x = th → t.state = QUEUED := by
    rintro rfl
    exact Option.some.inj ((seen hthread).state.symm.trans h)
  obtain ⟨-, hs⟩ := Option.ite_none_left_eq_some.mp hs
  split at hs
  · obtain ⟨-, heq⟩ := Option.ite_none_right_eq_some.mp hs
    cases heq
    exact waits_setThread (.inl h) fun heq => .inl (hth heq)
  obtain ⟨-, hs⟩ := Option.ite_none_left_eq_some.mp hs
  split at hs
  · exact waits_removeOut (waits_setThread (.inl h) fun _ => .inr rfl) hs
  · obtain ⟨s1, hs1, hs⟩ := Option.bind_eq_some_iff.mp hs
    obtain ⟨⟨s2, ctx⟩, hs2, hs⟩ := Option.bind_eq_some_iff.mp hs
    have h1 : s1.waits x ∧ x ∉ s1.outQueue := by
      split at hs1
      · next hsleeping =>
        obtain ⟨s3, hs3, rfl⟩ := Option.map_eq_some_iff.mp hs1
        obtain ⟨q, -, rfl⟩ := Option.map_eq_some_iff.mp hs3
        have hne : x ≠ th := fun heq => by simp [hth heq] at hsleeping
        exact ⟨waits_setThread (s := { s with sleepQueue := q }) (.inl h)
          fun heq => absurd heq hne, hout⟩
      · obtain ⟨-, heq⟩ := Option.ite_none_right_eq_some.mp hs1
        cases heq
        exact ⟨.inl h, hout⟩
    have h2 := waits_schedThread h1.1 h1.2 hs2
    cases ctx with
    | some cid => exact waits_schedule h2 hs
    | none =>
      obtain ⟨t2, hthread2, hs⟩ := Option.bind_eq_some_iff.mp hs
      obtain ⟨s3, hs3, hwait⟩ := Option.bind_eq_some_iff.mp hs
      have h3 := waits_pushRun (waits_setThread h2 fun _ => .inl rfl) hs3
      exact waits_waitForContext h3 hwait

theorem waits_syncEnd (h : s.stateOf x = some QUEUED) (hout : x ∉ s.outQueue)
    (hs : s.syncEnd th = some s') : s'.waits x := by
  obtain ⟨t, hthread, hs⟩ := Option.bind_eq_some_iff.mp hs
  have hth : x = th → t.state = QUEUED := by
    rintro rfl
    exact Option.some.inj ((seen hthread).state.symm.trans h)
  obtain ⟨-, hs⟩ := Option.ite_none_left_eq_some.mp hs
  split at hs
  · cases hs
    exact waits_setThread (.inl h) fun heq => .inl (hth heq)
  · obtain ⟨s1, hs1, hs⟩ := Option.bind_eq_some_iff.mp hs
    obtain ⟨s2, hs2, hs⟩ := Option.bind_eq_some_iff.mp hs
    obtain ⟨s3, hs3, hs⟩ := Option.bind_eq_some_iff.mp hs
    obtain ⟨⟨s4, ctx⟩, hs4, hs⟩ := Option.bind_eq_some_iff.mp hs
    have h0 := waits_setThread (t := { t with handoffThread := none, place := .elsewhere })
      (.inl h) fun heq => .inl (hth heq)
    have h1 := waits_deschedule h0 hs1 fun _ => rfl
    have h3 := waits_wakeup (waits_schedule h1 hs2) hs3
    have hout3 : x ∉ s3.outQueue := by
      rwa [outQueue_wakeup hs3, outQueue_schedule hs2, outQueue_deschedule hs1]
    have h4 := waits_schedThread h3 hout3 hs4
    cases ctx with
    | some cid => exact waits_schedule h4 hs
    | none =>
      obtain ⟨s5, hs5, hwait⟩ := Option.bind_eq_some_iff.mp hs
      exact waits_waitForContext (waits_pushRun h4 hs5) hwait

theorem waits_endPhase {avail : List Nat} (h : s.waits x) (hsleep : x ∉ s.sleepQueue)
    (hs : s.endPhase avail = some s') : s'.waits x := by
  obtain ⟨-, hs⟩ := Option.ite_none_right_eq_some.mp hs
  obtain ⟨s1, hs1, hs⟩ := Option.bind_eq_some_iff.mp hs
  have h0 : s.release.waits x := by
    have hstate : s.release.stateOf x = s.stateOf x :=
      release_keeps (Option.map (·.state)) (fun _ => rfl) x
    rwa [waits, hstate]
  have h1 := waits_wakeSleepers (s := { s.release with curPhase := s.curPhase + 1 }) h0 hsleep hs1
  split at hs
  · exact waits_tickLoop h1 hs
  · cases hs
    exact h1

/-- Until it runs, a thread that was handed over stays queued. -/
theorem Inv.waits_step {op : Op} {v : Nat} (hinv : Inv none [] s)
    (hhandoff : s.handoffOf v = some x) (hs : step op s = some s') : s'.waits x := by
  obtain ⟨-, hqueued⟩ := hinv.target hhandoff
  have hqueue : x ∉ s.runQueue := fun hmem => ((hinv.run x).mp hmem).2.1 v hhandoff
  have hout : x ∉ s.outQueue := by
    intro hmem
    cases hqueued.symm.trans ((hinv.out x).mp hmem).2
  have hidle : ∀ cid, (s.contexts cid).curThread ≠ some x := by
    intro cid hcur
    obtain hrunning | hout := (hinv.owner hcur).2.2.2
    · cases hqueued.symm.trans hrunning
    · cases hqueued.symm.trans hout
  have hkeep : ∀ {th t t'}, s.threads th = some t → t'.state = t.state →
      (s.setThread th t').stateOf x = some QUEUED := by
    intro th t t' hthread hstate
    rw [stateOf_setThread, hstate, ← (seen hthread).state]
    split
    · next heq => rw [← heq, hqueued]
    · exact hqueued
  cases op with
  | start gid mask =>
    obtain ⟨-, heq⟩ := Option.ite_none_right_eq_some.mp hs
    cases heq
    refine waits_setThread (.inl hqueued) fun heq => ?_
    simp [stateOf, heq, hinv.fresh _ (Nat.le_refl _)] at hqueued
  | finish gid =>
    obtain ⟨th, -, hs⟩ := Option.bind_eq_some_iff.mp hs
    obtain ⟨t, hthread, hs⟩ := Option.bind_eq_some_iff.mp hs
    obtain ⟨-, hs⟩ := Option.ite_none_left_eq_some.mp hs
    split at hs
    · cases hs
      exact .inl (hkeep hthread rfl)
    · have hkept : (s.setThread th { t with finishing := .left }).stateOf x = some QUEUED :=
        hkeep hthread rfl
      refine waits_finishRest ?_ ?_ ?_ hs
      · exact .inl hkept
      · exact hqueue
      · intro heq
        cases hkept.symm.trans heq
  | finishLeave th =>
    obtain ⟨t, hthread, hs⟩ := Option.bind_eq_some_iff.mp hs
    obtain ⟨-, hs⟩ := Option.ite_none_right_eq_some.mp hs
    refine waits_leave ?_ hs (hidle _)
    exact .inl (hkeep hthread rfl)
  | finishEnd th =>
    obtain ⟨t, -, hs⟩ := Option.bind_eq_some_iff.mp hs
    obtain ⟨-, hs⟩ := Option.ite_none_right_eq_some.mp hs
    exact waits_finishRest (.inl hqueued) hqueue (by simp [hqueued]) hs
  | join gid => exact waits_join hqueued hout hs
  | leave cid =>
    obtain ⟨th, -, hs⟩ := Option.bind_eq_some_iff.mp hs
    obtain ⟨t, -, hs⟩ := Option.bind_eq_some_iff.mp hs
    obtain ⟨-, hs⟩ := Option.ite_none_right_eq_some.mp hs
    exact waits_leave (.inl hqueued) hs (hidle cid)
  | sync cid =>
    obtain ⟨th, -, hs⟩ := Option.bind_eq_some_iff.mp hs
    obtain ⟨t, hthread, hs⟩ := Option.bind_eq_some_iff.mp hs
    obtain ⟨-, heq⟩ := Option.ite_none_right_eq_some.mp hs
    cases heq
    exact .inl (hkeep hthread rfl)
  | syncEnd th => exact waits_syncEnd hqueued hout hs
  | waitEnd th =>
    obtain ⟨t, hthread, hs⟩ := Option.bind_eq_some_iff.mp hs
    obtain ⟨-, heq⟩ := Option.ite_none_right_eq_some.mp hs
    cases heq
    exact .inl (hkeep hthread rfl)
  | syscallLeave cid =>
    obtain ⟨th, -, hs⟩ := Option.bind_eq_some_iff.mp hs
    obtain ⟨t, hthread, hs⟩ := Option.bind_eq_some_iff.mp hs
    obtain ⟨-, heq⟩ := Option.ite_none_right_eq_some.mp hs
    cases heq
    exact .inl (hkeep hthread rfl)
  | finishFakeLeave th =>
    obtain ⟨t, hthread, hs⟩ := Option.bind_eq_some_iff.mp hs
    obtain ⟨-, heq⟩ := Option.ite_none_right_eq_some.mp hs
    cases heq
    exact .inl (hkeep hthread rfl)
  | markForSleep gid wakeupPhase =>
    obtain ⟨th, -, hs⟩ := Option.bind_eq_some_iff.mp hs
    obtain ⟨t, hthread, hs⟩ := Option.bind_eq_some_iff.mp hs
    obtain ⟨-, heq⟩ := Option.ite_none_right_eq_some.mp hs
    cases heq
    exact .inl (hkeep hthread rfl)
  | notifySleepEnd gid =>
    obtain ⟨th, -, hs⟩ := Option.bind_eq_some_iff.mp hs
    obtain ⟨t, hthread, hs⟩ := Option.bind_eq_some_iff.mp hs
    obtain ⟨-, hs⟩ := Option.ite_none_left_eq_some.mp hs
    split at hs
    · cases hs
      exact .inl hqueued
    · obtain ⟨hsleeping, hs⟩ := Option.ite_none_right_eq_some.mp hs
      obtain ⟨s1, hs1, rfl⟩ := Option.map_eq_some_iff.mp hs
      obtain ⟨q, -, rfl⟩ := Option.map_eq_some_iff.mp hs1
      refine waits_setThread (s := { s with sleepQueue := q }) (.inl hqueued) ?_
      rintro rfl
      rw [(seen hthread).state, hsleeping] at hqueued
      cases hqueued
  | endPhase avail =>
    apply waits_endPhase (.inl hqueued) _ hs
    intro hmem
    cases hqueued.symm.trans ((hinv.sleep x).mp hmem).2

/-! ### What holds in every state -/

/-- The lists and the maps are exact. -/
structure Consistent (s : Scheduler) : Prop where
  /-- Each context is either in the `freeList`, or scheduled. -/
  contexts : ∀ cid < s.numCores,
    (s.freeList.count cid = 1 ∧ s.contexts cid = ⟨.IDLE, none⟩) ∨
    (cid ∉ s.freeList ∧ ∃ th, s.contexts cid = ⟨.USED, some th⟩)
  free : ∀ cid ∈ s.freeList, cid < s.numCores
  cids : ∀ cid th, (s.contexts cid).curThread = some th ↔ s.placedOn th ∧ s.cidOf th = some cid
  /-- `finish` takes the `gid` of a thread out of the map before the thread leaves. -/
  gids : ∀ gid th, s.gidMap gid = some th ↔ s.gidOf th = some gid
  out : ∀ th, th ∈ s.outQueue ↔ s.stateOf th = some OUT
  run : ∀ th, th ∈ s.runQueue ↔ s.stateOf th = some QUEUED ∧ ∀ v, s.handoffOf v ≠ some th
  sleep : ∀ th, th ∈ s.sleepQueue ↔ s.stateOf th = some SLEEPING
  /-- No thread is in two queues, or twice in one. -/
  queues : (s.runQueue ++ s.outQueue ++ s.sleepQueue).Nodup
  /-- No queued thread could have a free context. -/
  work : ∀ th ∈ s.runQueue, ∀ cid ∈ s.freeList, s.allowed th cid = false
  victim : ∀ avail s1, s.allSynced = true → avail.Perm (List.range s.numCores) →
    s.beforeTick = some s1 → (s1.schedTick avail).isSome

theorem Inv.consistent (h : Inv none [] s) : Consistent s := by
  constructor
  case contexts =>
    intro cid hcid
    obtain hidle | ⟨-, th, hused, -⟩ := h.context cid
    · have hmem := (h.free cid).mpr ⟨hcid, by rw [hidle], by simp⟩
      exact .inl ⟨List.count_eq_one_of_mem h.free_nodup hmem, hidle⟩
    · refine .inr ⟨fun hmem => ?_, th, hused⟩
      have hidle := ((h.free cid).mp hmem).2.1
      rw [hused] at hidle
      cases hidle
  case free => exact fun cid hmem => ((h.free cid).mp hmem).1
  case cids =>
    intro cid th
    constructor
    · exact fun hcur => ⟨(h.owner hcur).2.2.2, (h.owner hcur).2.2.1⟩
    · rintro ⟨hplaced, hown⟩
      obtain ⟨c, hc, hused, -⟩ := h.placed th hplaced
      obtain rfl : cid = c := Option.some.inj (hown.symm.trans hc)
      rw [hused]
  case gids => exact h.gid
  case out => simpa using h.out
  case run =>
    intro th
    rw [h.run]
    simp [and_comm]
  case sleep => simpa using h.sleep
  case queues =>
    refine List.nodup_append.mpr ⟨List.nodup_append.mpr ⟨h.run_nodup, h.out_nodup, ?_⟩,
      h.sleep_nodup, ?_⟩
    · rintro x hx y hy rfl
      cases ((h.run x).mp hx).2.2.symm.trans ((h.out x).mp hy).2
    · rintro x hx y hy rfl
      have hsleep := ((h.sleep x).mp hy).2
      obtain hx | hx := List.mem_append.mp hx
      · cases ((h.run x).mp hx).2.2.symm.trans hsleep
      · cases ((h.out x).mp hx).2.symm.trans hsleep
  case work =>
    intro th hth cid hmem
    obtain ⟨hcid, hidle, -⟩ := (h.free cid).mp hmem
    by_contra hmay
    obtain ⟨v, hcur, -⟩ := h.busy th hth cid hcid (by simpa using hmay) (by simp)
    rw [(h.owner hcur).2.1] at hidle
    cases hidle
  case victim =>
    intro avail s1 hsynced havail hs1
    obtain ⟨-, s2, hs2, -⟩ := h.beforeTick hsynced havail hs1
    rw [hs2]
    rfl

/-- A thread that waits for a context is in the `runQueue`, or a running thread will hand its
context over to it, or it runs. -/
def Kept (s : Scheduler) (th : Nat) : Prop :=
  (∃ v cid, s.handoffOf v = some th ∧ s.stateOf v = some RUNNING ∧
    (s.contexts cid).curThread = some v) ∨ th ∈ s.runQueue ∨ s.stateOf th = some RUNNING

/-- No handoff is lost, and none is to a thread that is gone. -/
structure HandedOff (s : Scheduler) : Prop where
  queued : ∀ th, s.stateOf th = some QUEUED → s.Kept th
  handoff : ∀ v th, s.handoffOf v = some th →
    s.stateOf v = some RUNNING ∧ s.stateOf th = some QUEUED
  live : ∀ cid th, (s.contexts cid).curThread = some th → (s.threads th).isSome

theorem Inv.kept (h : Inv none [] s) (hwaits : s.waits th) : s.Kept th := by
  obtain hqueued | hrunning := hwaits
  · by_cases hhandoff : ∃ v, s.handoffOf v = some th
    · obtain ⟨v, hv⟩ := hhandoff
      obtain ⟨hrunning, -⟩ := h.handoff v th hv
      obtain ⟨cid, -, hused, -⟩ := h.placed v (.inl hrunning)
      exact .inl ⟨v, cid, hv, hrunning, by rw [hused]⟩
    · refine .inr (.inl ((h.run th).mpr ⟨by simp, fun v hv => hhandoff ⟨v, hv⟩, hqueued⟩))
  · exact .inr (.inr hrunning)

theorem Inv.handedOff (h : Inv none [] s) : HandedOff s := by
  refine ⟨fun th hqueued => h.kept (.inl hqueued),
    fun v th hv => ⟨(h.handoff v th hv).1, (h.target hv).2⟩, fun cid th hcur => ?_⟩
  obtain ⟨t, ht, -⟩ := Option.map_eq_some_iff.mp (h.owner hcur).2.2.1
  rw [ht]
  rfl

end Scheduler

/-- Two threads share a core, and a phase ends: the first thread is to hand its context over. -/
def handover : List Op :=
  [.start 0 [true], .join 0, .start 1 [true], .join 1, .sync 0, .endPhase [0]]

/-- In every state that a run reaches, if no call of `finish` makes a thread leave that has a
handoff to make. -/
theorem run_consistent {numCores : Nat} {schedQuantum : UInt64} {ops : List Op} {s : Scheduler}
    (hok : Lib.Along step Ok ops (.init numCores schedQuantum))
    (hrun : Lib.run step ops (.init numCores schedQuantum) = some s) : s.Consistent :=
  (inv_run hok hrun).consistent

/-- Two threads share a core, and the first one goes after it handed its context over. -/
theorem run_consistent_two : ∃ s, Lib.run step (handover ++ [.syncEnd 0, .waitEnd 1, .finish 0])
    (.init 1 1) = some s ∧ s.Consistent := by
  have hok : Lib.Along step Ok (handover ++ [.syncEnd 0, .waitEnd 1, .finish 0]) (.init 1 1) := by
    decide
  obtain ⟨s, hs⟩ : ∃ s, Lib.run step (handover ++ [.syncEnd 0, .waitEnd 1, .finish 0])
    (.init 1 1) = some s := ⟨_, rfl⟩
  exact ⟨s, hs, run_consistent hok hs⟩

/-- The `gid` of a running thread is not in the map when `finish` makes it leave. -/
theorem finish_unmaps : ∃ s, Lib.run step [.start 0 [true], .join 0, .finish 0] (.init 1 1) =
    some s ∧ s.placedOn 0 ∧ (s.threads 0).map (·.gid) = some 0 ∧ s.gidMap 0 = none :=
  ⟨_, rfl, .inl rfl, rfl, rfl⟩

end Doppelganger.Scheduling
