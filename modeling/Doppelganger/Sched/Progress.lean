import Doppelganger.Sched.Handoffs
import Doppelganger.Sched.Sleepers

/-! No handoff is lost as long as `finish` takes no thread away that has a handoff to make or that
waits for one; and then no assertion of the scheduler fails, if each thread makes the calls that its
own state allows. -/

namespace Doppelganger.Scheduling

open List ThreadState

/-! ### The calls -/

/-- The thread has a context and is inside no call. -/
def ThreadInfo.active (t : ThreadInfo) : Prop :=
  t.state = RUNNING ∧ t.place = .elsewhere ∧ t.finishing = .no ∧ t.fakeLeave = false

instance (t : ThreadInfo) : Decidable t.active :=
  inferInstanceAs (Decidable (_ ∧ _ ∧ _ ∧ _))

/-- The call is one that the thread it is for may make, or that may be made for it. -/
def Called : Op → Scheduler → Prop
  | .start gid mask, s => s.gidMap gid = none ∧ mask.length = s.numCores ∧ true ∈ mask
  | .finish gid, s => ∃ t ∈ (s.gidMap gid).bind s.threads,
      t.state ≠ SLEEPING ∧ t.markedForSleep = false
  | .finishLeave th, s => ∃ t ∈ s.threads th, t.finishing = .leaving
  | .finishEnd th, s => ∃ t ∈ s.threads th, t.finishing = .left
  | .join gid, s => ∃ t ∈ (s.gidMap gid).bind s.threads, t.place = .elsewhere ∧
      (t.fakeLeave = true ∨ t.markedForSleep = false ∧ t.state ≠ RUNNING ∧ t.state ≠ QUEUED)
  | .leave cid, s => ∃ t ∈ (s.contexts cid).curThread.bind s.threads, t.active
  | .sync cid, s => ∃ t ∈ (s.contexts cid).curThread.bind s.threads,
      t.active ∧ t.markedForSleep = false
  | .syncEnd th, s => ∃ t ∈ s.threads th, t.place = .synced ∧ t.finishing = .no
  | .waitEnd th, s => ∃ t ∈ s.threads th,
      t.place = .waiting ∧ t.futexWord = 0 ∧ t.finishing = .no
  | .syscallLeave cid, s => ∃ t ∈ (s.contexts cid).curThread.bind s.threads,
      t.active ∧ t.markedForSleep = false
  | .finishFakeLeave th, s => ∃ t ∈ s.threads th, t.fakeLeave = true
  | .markForSleep gid wakeupPhase, s => ∃ t ∈ (s.gidMap gid).bind s.threads,
      t.place = .elsewhere ∧ t.markedForSleep = false ∧ t.state ≠ SLEEPING ∧
        (t.state = RUNNING → s.curPhase < wakeupPhase)
  | .notifySleepEnd gid, s => ∃ t ∈ (s.gidMap gid).bind s.threads,
      t.markedForSleep = false ∧ (t.state = BLOCKED ∨ t.state = SLEEPING)
  | .endPhase avail, s => s.allSynced = true ∧ avail.Perm (List.range s.numCores)

instance (op : Op) (s : Scheduler) : Decidable (Called op s) :=
  match op with
  | .start .. => inferInstanceAs (Decidable (_ ∧ _ ∧ _))
  | .finish .. | .finishLeave .. | .finishEnd .. | .join .. | .leave .. | .sync .. | .syncEnd ..
  | .waitEnd .. | .syscallLeave .. | .finishFakeLeave .. | .markForSleep .. | .notifySleepEnd .. =>
    inferInstanceAs (Decidable (∃ t ∈ _, _))
  | .endPhase .. => inferInstanceAs (Decidable (_ ∧ _))

/-- A thread that `finish` makes leave has no handoff to make, and a queued one that it takes away
is the handoff of no thread. -/
def HandoffOk (op : Op) (s : Scheduler) : Prop :=
  Ok op s ∧ match op with
    | .finish gid => ∀ th ∈ s.gidMap gid, s.stateOf th = some QUEUED →
        ∀ v < s.nextThread, s.handoffOf v ≠ some th
    | _ => True

instance (op : Op) (s : Scheduler) : Decidable (HandoffOk op s) :=
  match op with
  | .finish .. => inferInstanceAs (Decidable (_ ∧ ∀ th ∈ _, _ → ∀ v < _, _))
  | .start .. | .finishLeave .. | .finishEnd .. | .join .. | .leave .. | .sync .. | .syncEnd ..
  | .waitEnd .. | .syscallLeave .. | .finishFakeLeave .. | .markForSleep .. | .notifySleepEnd ..
  | .endPhase .. => inferInstanceAs (Decidable (_ ∧ True))

namespace Scheduler

variable {s : Scheduler}

theorem called_sleepOk {op : Op} (h : Called op s) : SleepOk op s := by
  cases op with
  | markForSleep gid wakeupPhase =>
    obtain ⟨t, ht, -, -, hawake⟩ := h
    intro t' ht'
    obtain rfl : t = t' := Option.some.inj (ht.symm.trans ht')
    exact hawake
  | _ => trivial

end Scheduler

/-! ### Threads between two steps -/

/-- What the ghosts of a thread say of its state. -/
structure ThreadInfo.Calm (t : ThreadInfo) : Prop where
  fake : t.fakeLeave = true → t.state = RUNNING ∧ t.place = .elsewhere
  leaving : t.finishing = .leaving →
    t.state = RUNNING ∧ t.markedForSleep = false ∧ t.fakeLeave = false
  left : t.finishing = .left → t.state = OUT ∨ t.state = BLOCKED

theorem ThreadInfo.calm_of_no {t : ThreadInfo} (hfinishing : t.finishing = .no)
    (hfake : t.fakeLeave = false) : t.Calm := by
  constructor <;> simp [hfinishing, hfake]

/-- A thread that is in no call of `finish`, nor in a fake leave, by its state. -/
theorem ThreadInfo.Calm.plain {t : ThreadInfo} (h : t.Calm) (hrunning : t.state ≠ RUNNING)
    (hleft : t.finishing ≠ .left ∨ t.state ≠ OUT ∧ t.state ≠ BLOCKED) :
    t.finishing = .no ∧ t.fakeLeave = false := by
  constructor
  · cases hfinishing : t.finishing with
    | no => rfl
    | leaving => exact absurd (h.leaving hfinishing).1 hrunning
    | left =>
      obtain hleft | ⟨hout, hblocked⟩ := hleft
      · exact absurd hfinishing hleft
      · exact absurd (h.left hfinishing) (not_or.mpr ⟨hout, hblocked⟩)
  · by_contra hfake
    exact hrunning (h.fake (eq_true_of_ne_false hfake)).1

namespace Scheduler

variable {s s' : Scheduler} {th x cid : Nat} {gid : UInt32} {t : ThreadInfo} {loose : List Nat}
  {hole : Option Nat}

def Settled (s : Scheduler) : Prop := ∀ x t, s.threads x = some t → t.Calm

/-- One thread is in the middle of a call. -/
def SettledBut (s : Scheduler) (th : Nat) : Prop :=
  ∀ x t, x ≠ th → s.threads x = some t → t.Calm

theorem Settled.but (h : s.Settled) (th : Nat) : s.SettledBut th := fun x t _ ht => h x t ht

theorem threads_setThread : (s.setThread th t).threads th = some t := Function.update_self ..

theorem threads_setThread_of_ne (hx : x ≠ th) : (s.setThread th t).threads x = s.threads x :=
  Function.update_of_ne hx ..

theorem SettledBut.setThread (h : s.SettledBut th) (ht : t.Calm) : (s.setThread th t).Settled := by
  intro x t' ht'
  by_cases hx : x = th
  · subst hx
    obtain rfl : t = t' := Option.some.inj (threads_setThread.symm.trans ht')
    exact ht
  · exact h x t' hx ((threads_setThread_of_ne hx).symm.trans ht')

theorem Settled.setThread (h : s.Settled) (ht : t.Calm) : (s.setThread th t).Settled :=
  (h.but th).setThread ht

theorem SettledBut.drop (h : s.SettledBut th) :
    Settled { s with threads := Function.update s.threads th none } := by
  intro x t ht
  have hx : x ≠ th := by
    rintro rfl
    simp at ht
  exact h x t hx ((Function.update_of_ne hx none s.threads).symm.trans ht)

theorem SettledBut.setThread_but (h : s.SettledBut th) : (s.setThread th t).SettledBut th :=
  fun x t' hx ht' => h x t' hx ((threads_setThread_of_ne hx).symm.trans ht')

theorem init_settled (numCores : Nat) (schedQuantum : UInt64) :
    (init numCores schedQuantum).Settled := fun _ _ ht => nomatch ht

/-! ### The parts of a step -/

theorem remove_mem {list : List Nat} (h : x ∈ list) : remove x list = some (list.erase x) :=
  if_pos h

theorem removeRun_mem (h : th ∈ s.runQueue) :
    s.removeRun th = some { s with runQueue := s.runQueue.erase th } := by
  rw [removeRun, remove_mem h, Option.map_some]

theorem removeOut_mem (h : th ∈ s.outQueue) :
    s.removeOut th = some { s with outQueue := s.outQueue.erase th } := by
  rw [removeOut, remove_mem h, Option.map_some]

theorem removeSleep_mem (h : th ∈ s.sleepQueue) :
    s.removeSleep th = some { s with sleepQueue := s.sleepQueue.erase th } := by
  rw [removeSleep, remove_mem h, Option.map_some]

theorem removeFree_mem (h : cid ∈ s.freeList) :
    s.removeFree cid = some { s with freeList := s.freeList.erase cid } := by
  rw [removeFree, remove_mem h, Option.map_some]

/-- A thread is in no queue that its state does not name. -/
theorem Inv.unowned (h : Inv hole loose s) (hqueued : s.stateOf th ≠ some QUEUED)
    (hout : s.stateOf th ≠ some OUT) (hsleep : s.stateOf th ≠ some SLEEPING) :
    s.owned th = false := by
  simp [owned, h.run, h.out, h.sleep, hqueued, hout, hsleep]

theorem Inv.unowned_loose (h : Inv hole loose s) (hloose : th ∈ loose) : s.owned th = false := by
  simp [owned, h.run, h.out, h.sleep, hloose]

theorem Inv.placed_used (h : Inv hole loose s) (hthread : s.threads th = some t)
    (hstate : t.state = RUNNING ∨ t.state = OUT) : s.contexts t.cid = ⟨.USED, some th⟩ := by
  obtain ⟨cid, hcid, hused, -⟩ := h.placed th ((placedOn_iff hthread).mpr hstate)
  obtain rfl : t.cid = cid := Option.some.inj ((seen hthread).cid.symm.trans hcid)
  exact hused

theorem deschedule_used {targetState : ThreadState} (hthread : s.threads th = some t)
    (hstate : t.state = RUNNING ∨ t.state = OUT) (hused : s.contexts t.cid = ⟨.USED, some th⟩)
    (htarget : targetState = .BLOCKED ∨ targetState = .QUEUED ∨ targetState = .SLEEPING) :
    s.deschedule th t.cid targetState =
      some ((s.setThread th { t with state := targetState }).setContext t.cid ⟨.IDLE, none⟩) := by
  rw [Scheduler.deschedule, hthread, Option.bind_some,
    if_pos ⟨hstate, by rw [hused], rfl, by rw [hused], htarget⟩]

theorem schedule_idle (hthread : s.threads th = some t)
    (hstate : t.state = .STARTED ∨ t.state = .BLOCKED ∨ t.state = .QUEUED)
    (hidle : s.contexts cid = ⟨.IDLE, none⟩) : s.schedule th cid =
      some ((s.setThread th { t with state := .RUNNING, cid := cid }).setContext cid
        ⟨.USED, some th⟩) := by
  rw [Scheduler.schedule, hthread, Option.bind_some, if_pos ⟨hstate, by rw [hidle], by rw [hidle]⟩]

theorem wakeup_waiting {needsJoin : Bool} (hthread : s.threads th = some t)
    (hword : t.futexWord = 1) : s.wakeup th needsJoin =
      some (s.setThread th { t with needsJoin := needsJoin, futexWord := 0 }) := by
  rw [Scheduler.wakeup, hthread, Option.bind_some, if_pos hword]

/-- A thread that waits for a context runs in an idle one. -/
theorem schedule_waiting (hthread : s.threads th = some t) (hstate : t.state = QUEUED)
    (hword : t.futexWord = 1) (hidle : s.contexts cid = ⟨.IDLE, none⟩) :
    ∃ s1 s2, s.schedule th cid = some s1 ∧ s1.wakeup th false = some s2 ∧
      (s.Settled → s2.Settled) ∧ ∀ x, x ≠ th → s2.threads x = s.threads x := by
  have hschedule := schedule_idle hthread (.inr (.inr hstate)) hidle
  refine ⟨_, _, hschedule, wakeup_waiting threads_setThread hword, fun hsettled => ?_,
    fun x hx => ?_⟩
  · obtain ⟨hfinishing, hfake⟩ := (hsettled th t hthread).plain (by simp [hstate])
      (.inr (by simp [hstate]))
    refine SettledBut.setThread ?_ (ThreadInfo.calm_of_no hfinishing hfake)
    exact (hsettled.but th).setThread_but
  · exact (threads_setThread_of_ne hx).trans (threads_setThread_of_ne hx)

/-- The thread that is found for a context is in the `runQueue`. -/
theorem schedContext_some (s : Scheduler) (cid : Nat) :
    s.schedContext cid = some (s, none) ∨ ∃ th ∈ s.runQueue,
      s.schedContext cid = some ({ s with runQueue := s.runQueue.erase th }, some th) := by
  unfold schedContext
  split
  case h_1 th hfind =>
    have hmem := List.mem_of_find?_eq_some hfind
    exact .inr ⟨th, hmem, by rw [removeRun_mem hmem, Option.map_some]⟩
  case h_2 => exact .inl rfl

/-- `schedThread` finds its context as its lists say, and at most blocks a thread that is out. -/
theorem Inv.schedThread_some (h : Inv none loose s) (hthread : s.threads th = some t)
    (hstate : t.state ≠ OUT) : ∃ s' ctx, s.schedThread th = some (s', ctx) ∧
      s'.threads th = some t ∧ (s.Settled → s'.Settled) := by
  have hcid := h.cid th t.cid (seen hthread).cid
  unfold Scheduler.schedThread
  rw [hthread, Option.bind_some, if_pos hcid]
  split
  case isTrue hlast =>
    have hmem := (h.free t.cid).mpr ⟨hcid, hlast.1, by simp⟩
    rw [removeFree_mem hmem, Option.map_some]
    exact ⟨_, _, rfl, hthread, id⟩
  case isFalse =>
    split
    case h_1 cid hfind =>
      have hmem := List.mem_of_find?_eq_some hfind
      rw [removeFree_mem hmem, Option.map_some]
      exact ⟨_, _, rfl, hthread, id⟩
    case h_2 =>
      split
      case h_2 => exact ⟨_, _, rfl, hthread, id⟩
      case h_1 outTh hfind =>
        have hmem := List.mem_of_find?_eq_some hfind
        obtain ⟨o, ho, hout⟩ := Option.map_eq_some_iff.mp ((h.out outTh).mp hmem).2
        have hne : th ≠ outTh := by
          rintro rfl
          exact hstate (Option.some.inj (hthread.symm.trans ho) ▸ hout)
        have hused := h.placed_used ho (.inr hout)
        rw [ho, Option.bind_some, removeOut_mem hmem, Option.bind_some,
          deschedule_used (s := { s with outQueue := s.outQueue.erase outTh }) ho (.inr hout) hused
            (.inl rfl), Option.map_some]
        refine ⟨_, _, rfl, (threads_setThread_of_ne hne).trans hthread, fun hsettled => ?_⟩
        refine (hsettled.but outTh).setThread
          ⟨fun hfake => ?_, fun hleaving => ?_, fun _ => .inr rfl⟩
        · exact absurd ((hsettled outTh o ho).fake hfake).1 (by simp [hout])
        · exact absurd ((hsettled outTh o ho).leaving hleaving).1 (by simp [hout])

theorem insertSleep_new (h : s.owned th = false) :
    ∃ q, s.insertSleep th = some { s with sleepQueue := q } :=
  ⟨_, if_neg (by simp [h])⟩

theorem pushOut_new (h : s.owned th = false) :
    s.pushOut th = some { s with outQueue := s.outQueue ++ [th] } := if_neg (by simp [h])

theorem pushRun_new (h : s.owned th = false) :
    s.pushRun th = some { s with runQueue := s.runQueue ++ [th] } := if_neg (by simp [h])

theorem pushFree_new (h : cid ∉ s.freeList) :
    s.pushFree cid = some { s with freeList := s.freeList ++ [cid] } := if_neg h

theorem Inv.used_not_free (h : Inv hole loose s) (hused : s.contexts cid = ⟨.USED, some th⟩) :
    cid ∉ s.freeList := by
  intro hmem
  have hidle := ((h.free cid).mp hmem).2.1
  rw [hused] at hidle
  cases hidle

/-! ### The calls of `leave` and `finish` -/

/-- A running thread that is not about to finish, or whose call of `finish` makes it leave. -/
theorem Inv.leave_some (h : Inv none [] s) (hbut : s.SettledBut th)
    (hwords : ∀ x ∈ s.runQueue, s.wordOf x = some 1)
    (hcur : (s.contexts cid).curThread = some th) (hthread : s.threads th = some t)
    (hstate : t.state = RUNNING) (hfake : t.fakeLeave = false) (hleaving : t.finishing ≠ .leaving)
    (hleft : t.finishing = .left → t.markedForSleep = false) :
    ∃ s', s.leave cid = some s' ∧ s'.Settled := by
  have hused := h.placed_used hthread (.inl hstate)
  have hown : t.cid = cid :=
    Option.some.inj ((seen hthread).cid.symm.trans (h.owner hcur).2.2.1)
  subst hown
  have hunowned : s.owned th = false := by
    apply h.unowned <;> simp [(seen hthread).state, hstate]
  -- The thread that comes in waits in the `runQueue`.
  have hwaiting : ∀ inTh ∈ s.runQueue, inTh ≠ th ∧ ∃ q, s.threads inTh = some q ∧
      q.state = QUEUED ∧ q.futexWord = 1 := by
    intro inTh hmem
    obtain ⟨q, hq, hqueued⟩ := Option.map_eq_some_iff.mp ((h.run inTh).mp hmem).2.2
    obtain ⟨q', hq', hword⟩ := Option.map_eq_some_iff.mp (hwords inTh hmem)
    obtain rfl : q = q' := Option.some.inj (hq.symm.trans hq')
    refine ⟨?_, q, hq, hqueued, hword⟩
    rintro rfl
    obtain rfl : t = q := Option.some.inj (hthread.symm.trans hq)
    simp [hstate] at hqueued
  unfold Scheduler.leave
  rw [hcur, Option.bind_some, hthread, Option.bind_some, if_neg (by simp [hstate])]
  split
  case isTrue hmarked =>
    have hno : t.finishing = .no := by
      cases hfinishing : t.finishing with
      | no => rfl
      | leaving => exact absurd hfinishing hleaving
      | left => simp [hleft hfinishing] at hmarked
    rw [deschedule_used (s := s.setThread th { t with markedForSleep := false }) threads_setThread
      (.inl hstate) hused (.inr (.inr rfl)), Option.bind_some]
    generalize hs1 : Scheduler.setContext _ t.cid ⟨.IDLE, none⟩ = s1
    have hunowned1 : s1.owned th = false := by rw [← hs1]; exact hunowned
    obtain ⟨q, hinsert⟩ := insertSleep_new hunowned1
    have hsettled : s1.Settled := by
      rw [← hs1]
      exact hbut.setThread_but.setThread (ThreadInfo.calm_of_no hno hfake)
    rw [hinsert, Option.bind_some]
    obtain hnone | ⟨inTh, hmem, hsome⟩ := schedContext_some { s1 with sleepQueue := q } t.cid
    · have hnew : t.cid ∉ s1.freeList := by rw [← hs1]; exact h.used_not_free hused
      rw [hnone, Option.bind_some]
      exact ⟨_, pushFree_new (s := { s1 with sleepQueue := q }) hnew, hsettled⟩
    · have hmem : inTh ∈ s.runQueue := by rw [← hs1] at hmem; exact hmem
      obtain ⟨hne, w, hw, hqueued, hword⟩ := hwaiting inTh hmem
      have hw1 : s1.threads inTh = some w := by
        rw [← hs1]
        exact (threads_setThread_of_ne hne).trans ((threads_setThread_of_ne hne).trans hw)
      have hidle : s1.contexts t.cid = ⟨.IDLE, none⟩ := by rw [← hs1]; exact Function.update_self ..
      obtain ⟨s2, s3, hschedule, hwake, hkeeps, -⟩ := schedule_waiting
        (s := { s1 with sleepQueue := q, runQueue := s1.runQueue.erase inTh }) hw1 hqueued hword
        hidle
      rw [hsome, Option.bind_some]
      exact ⟨s3, Option.bind_eq_some_iff.mpr ⟨s2, hschedule, hwake⟩, hkeeps hsettled⟩
  case isFalse hmarked =>
    have hcalm : ∀ state, state = OUT ∨ state = BLOCKED →
        ThreadInfo.Calm { t with state := state } := fun state hleft =>
      ⟨fun h => absurd h (by simp [hfake]), fun h => absurd h hleaving, fun _ => hleft⟩
    obtain hnone | ⟨inTh, hmem, hsome⟩ := schedContext_some s t.cid
    · rw [hnone, Option.bind_some]
      exact ⟨_, pushOut_new (s := s.setThread th { t with state := OUT }) hunowned,
        hbut.setThread (hcalm OUT (.inl rfl))⟩
    · obtain ⟨hne, w, hw, hqueued, hword⟩ := hwaiting inTh hmem
      rw [hsome, Option.bind_some]
      dsimp only
      rw [deschedule_used (s := { s with runQueue := s.runQueue.erase inTh }) hthread (.inl hstate)
        hused (.inl rfl), Option.bind_some]
      generalize hs1 : Scheduler.setContext _ t.cid ⟨.IDLE, none⟩ = s1
      have hsettled : s1.Settled := by
        rw [← hs1]
        exact hbut.setThread (hcalm BLOCKED (.inr rfl))
      have hw1 : s1.threads inTh = some w := by
        rw [← hs1]
        exact (threads_setThread_of_ne hne).trans hw
      have hidle : s1.contexts t.cid = ⟨.IDLE, none⟩ := by rw [← hs1]; exact Function.update_self ..
      obtain ⟨s2, s3, hschedule, hwake, hkeeps, -⟩ := schedule_waiting hw1 hqueued hword hidle
      exact ⟨s3, Option.bind_eq_some_iff.mpr ⟨s2, hschedule, hwake⟩, hkeeps hsettled⟩

/-- What is left of `finish` when the thread is not RUNNING, and no sleeper either. -/
theorem Inv.finishRest_some (h : Inv none [] s) (hbut : s.SettledBut th)
    (hthread : s.threads th = some t) (hrunning : t.state ≠ RUNNING)
    (hsleeping : t.state ≠ SLEEPING)
    (hpending : t.state = QUEUED → ∀ v, s.handoffOf v ≠ some th) :
    ∃ s', s.finishRest th = some s' ∧ s'.Settled := by
  have hseen := seen hthread
  unfold Scheduler.finishRest
  rw [hthread, Option.bind_some, if_pos (by cases hstate : t.state <;> simp_all)]
  dsimp only
  split
  case isTrue hqueued =>
    have hmem : th ∈ s.runQueue :=
      (h.run th).mpr ⟨by simp, hpending hqueued, hqueued ▸ hseen.state⟩
    rw [removeRun_mem hmem, Option.map_some]
    exact ⟨_, rfl, hbut.drop⟩
  case isFalse hqueued =>
    split
    case isFalse => exact ⟨_, rfl, hbut.drop⟩
    case isTrue howned =>
      have hout : t.state = OUT := by
        by_contra hout
        have hunowned : s.owned th = false := by
          apply h.unowned <;> simpa [hseen.state]
        rw [hunowned] at howned
        exact absurd howned (by simp)
      have hmem : th ∈ s.outQueue := (h.out th).mpr ⟨by simp, hout ▸ hseen.state⟩
      have hused := h.placed_used hthread (.inr hout)
      rw [removeOut_mem hmem, Option.bind_some,
        deschedule_used (s := { s with outQueue := s.outQueue.erase th }) hthread (.inr hout) hused
          (.inl rfl), Option.bind_some]
      generalize hs1 : Scheduler.setContext _ t.cid ⟨.IDLE, none⟩ = s1
      have hnew : t.cid ∉ s1.freeList := by rw [← hs1]; exact h.used_not_free hused
      have hsettled : s1.SettledBut th := by rw [← hs1]; exact hbut.setThread_but
      rw [pushFree_new hnew, Option.map_some]
      exact ⟨_, rfl, SettledBut.drop (s := { s1 with freeList := s1.freeList ++ [t.cid] }) hsettled⟩

/-! ### The other entry points -/

/-- Only a thread that `finish` was not called for is in the map. -/
theorem Inv.mapped (h : Inv hole loose s) (hmap : s.gidMap gid = some th)
    (hthread : s.threads th = some t) : t.finishing = .no := by
  have hgid := (h.gid gid th).mp hmap
  rw [(seen hthread).gid] at hgid
  by_contra hfinishing
  rw [if_neg hfinishing] at hgid
  cases hgid

theorem Inv.idle (h : Inv (some cid) loose s) : s.contexts cid = ⟨.IDLE, none⟩ :=
  (h.vacant cid rfl).2

/-- A loose thread gets a context or queues up. -/
theorem Inv.place_some (h : Inv none [th] s) (hsettled : s.Settled)
    (hthread : s.threads th = some t)
    (hstate : t.state = STARTED ∨ t.state = BLOCKED ∨ t.state = QUEUED)
    (hfinishing : t.finishing = .no) (hfake : t.fakeLeave = false) :
    ∃ s1 ctx, s.schedThread th = some (s1, ctx) ∧ s1.threads th = some t ∧ s1.Settled ∧
      (∀ cid, ctx = some cid → ∃ s2, s1.schedule th cid = some s2 ∧ s2.Settled) ∧
      (ctx = none → s1.owned th = false) := by
  have hout : t.state ≠ OUT := by grind
  obtain ⟨s1, ctx, hs1, hthread1, hkeeps⟩ := h.schedThread_some hthread hout
  have hcases := h.schedThread hs1 fun x hx => by
    rw [List.mem_singleton.mp hx, (seen hthread).state]
    exact fun heq => hout (Option.some.inj heq)
  refine ⟨s1, ctx, hs1, hthread1, hkeeps hsettled, ?_, ?_⟩
  · rintro cid rfl
    obtain ⟨c, hc, h1, -⟩ | ⟨hc, -⟩ := hcases
    · obtain rfl := Option.some.inj hc
      exact ⟨_, schedule_idle hthread1 hstate h1.idle,
        (hkeeps hsettled).setThread (ThreadInfo.calm_of_no hfinishing hfake)⟩
    · cases hc
  · rintro rfl
    obtain ⟨c, hc, -⟩ | ⟨-, rfl, -⟩ := hcases
    · cases hc
    · exact h.unowned_loose (List.mem_singleton_self th)

/-- A thread that is in no queue waits for a context. -/
theorem wait_some (hsettled : s.Settled) (hthread : s.threads th = some t)
    (hunowned : s.owned th = false) (hfinishing : t.finishing = .no) (hfake : t.fakeLeave = false) :
    ∃ s', (s.pushRun th).bind (waitForContext · th) = some s' ∧ s'.Settled := by
  rw [pushRun_new hunowned, Option.bind_some, Scheduler.waitForContext]
  exact ⟨_, congrArg (Option.map _) hthread,
    hsettled.setThread (ThreadInfo.calm_of_no hfinishing hfake)⟩

theorem Inv.join_some (h : Inv none [] s) (hsettled : s.Settled) (hcalled : Called (.join gid) s) :
    ∃ s', s.join gid = some s' ∧ s'.Settled := by
  obtain ⟨t, ht, hplace, hmay⟩ := hcalled
  obtain ⟨th, hmap, hthread⟩ := Option.bind_eq_some_iff.mp ht
  have hfinishing := h.mapped hmap hthread
  unfold Scheduler.join
  rw [hmap, Option.bind_some, hthread, Option.bind_some, if_neg (not_not.mpr hplace)]
  split
  case isTrue hfake =>
    rw [if_pos ((hsettled th t hthread).fake hfake).1]
    exact ⟨_, rfl, hsettled.setThread (ThreadInfo.calm_of_no hfinishing rfl)⟩
  case isFalse hfake =>
    have hfake := eq_false_of_ne_true hfake
    obtain ⟨hunmarked, hrunning, hqueued⟩ := hmay.resolve_left (by simp [hfake])
    rw [if_neg (by simp [hunmarked])]
    split
    case isTrue hout =>
      have hmem : th ∈ s.outQueue := (h.out th).mpr ⟨by simp, hout ▸ (seen hthread).state⟩
      exact ⟨_, removeOut_mem (s := s.setThread th { t with state := RUNNING }) hmem,
        hsettled.setThread (ThreadInfo.calm_of_no hfinishing hfake)⟩
    case isFalse hout =>
      dsimp only
      obtain ⟨s1, hs1, hsettled1⟩ : ∃ s1, (if t.state = SLEEPING then
            (s.removeSleep th).map (setThread · th { t with state := .BLOCKED })
          else if t.state = BLOCKED ∨ t.state = STARTED then some s else none) = some s1 ∧
            s1.Settled := by
        split
        case isTrue hsleeping =>
          have hmem := (h.sleep th).mpr ⟨by simp, hsleeping ▸ (seen hthread).state⟩
          rw [removeSleep_mem hmem, Option.map_some]
          exact ⟨_, rfl, hsettled.setThread (ThreadInfo.calm_of_no hfinishing hfake)⟩
        case isFalse hsleeping =>
          rw [if_pos (by cases hstate : t.state <;> simp_all)]
          exact ⟨s, rfl, hsettled⟩
      obtain ⟨state, hthread1, hstate1, h1⟩ := h.awake hthread hs1
      obtain ⟨s2, ctx, hs2, hthread2, hsettled2, hsome, hnone⟩ :=
        h1.place_some hsettled1 hthread1 (by grind) hfinishing hfake
      rw [hs1, Option.bind_some, hs2, Option.bind_some]
      cases ctx with
      | some cid => exact hsome cid rfl
      | none =>
        dsimp only
        rw [hthread2, Option.bind_some]
        exact wait_some (hsettled2.setThread (ThreadInfo.calm_of_no hfinishing hfake))
          threads_setThread (hnone rfl) hfinishing hfake

theorem Inv.syncEnd_some (h : Inv none [] s) (hrests : s.Rests) (hsettled : s.Settled)
    (hthread : s.threads th = some t) (hplace : t.place = .synced)
    (hfinishing : t.finishing = .no) :
    ∃ s', s.syncEnd th = some s' ∧ s'.Settled := by
  have hfake : t.fakeLeave = false := by
    by_contra hfake
    have helsewhere := ((hsettled th t hthread).fake (eq_true_of_ne_false hfake)).2
    cases hplace.symm.trans helsewhere
  have hcalm : ∀ state, ThreadInfo.Calm
      { t with state := state, handoffThread := none, place := .elsewhere } := fun _ =>
    ThreadInfo.calm_of_no hfinishing hfake
  unfold Scheduler.syncEnd
  rw [hthread, Option.bind_some, if_neg (by simp [hplace, hfinishing])]
  split
  case h_1 hnone =>
    exact ⟨_, rfl, hsettled.setThread (ThreadInfo.calm_of_no hfinishing hfake)⟩
  case h_2 dst hdst =>
    have hhandoff := (seen hthread).handoff.trans hdst
    have hrunning : t.state = RUNNING :=
      Option.some.inj ((seen hthread).state.symm.trans (h.handoff th dst hhandoff).1)
    -- The other thread waits for a context.
    obtain ⟨-, -, hqueued, -, hword⟩ := hrests.handoff th dst hhandoff
    obtain ⟨w, hw, hstate⟩ := Option.map_eq_some_iff.mp hqueued
    obtain ⟨w', hw', hword⟩ := Option.map_eq_some_iff.mp hword
    obtain rfl : w = w' := Option.some.inj (hw.symm.trans hw')
    have hne : dst ≠ th := by
      rintro rfl
      obtain rfl : t = w := Option.some.inj (hthread.symm.trans hw)
      cases hrunning.symm.trans hstate
    have hused := h.placed_used hthread (.inl hrunning)
    generalize hs : ((s.setThread th
      { t with handoffThread := none, place := .elsewhere }).setThread th
      { t with state := QUEUED, handoffThread := none, place := .elsewhere }).setContext t.cid
      ⟨.IDLE, none⟩ = s1
    have hs1 : (s.setThread th { t with handoffThread := none, place := .elsewhere }).deschedule th
        t.cid .QUEUED = some s1 := by
      rw [← hs]
      exact deschedule_used threads_setThread (.inl hrunning) hused (.inr (.inl rfl))
    have hsettled1 : s1.Settled := by
      rw [← hs]
      exact (hsettled.but th).setThread_but.setThread (hcalm QUEUED)
    have hw1 : s1.threads dst = some w := by
      rw [← hs]
      exact (threads_setThread_of_ne hne).trans ((threads_setThread_of_ne hne).trans hw)
    have hthread1 : s1.threads th =
        some { t with state := QUEUED, handoffThread := none, place := .elsewhere } := by
      rw [← hs]
      exact threads_setThread
    have hidle : s1.contexts t.cid = ⟨.IDLE, none⟩ := by rw [← hs]; exact Function.update_self ..
    obtain ⟨s2, s3, hs2, hs3, hkeeps, hsame⟩ := schedule_waiting hw1 hstate hword hidle
    obtain ⟨h3, -⟩ := h.handedOver hthread hdst hs1 hs2 hs3
    have hthread3 := (hsame th hne.symm).trans hthread1
    obtain ⟨s4, ctx, hs4, hthread4, hsettled4, hsome, hnone⟩ :=
      h3.place_some (hkeeps hsettled1) hthread3 (.inr (.inr rfl)) hfinishing hfake
    rw [hs1, Option.bind_some, hs2, Option.bind_some, hs3, Option.bind_some, hs4, Option.bind_some]
    cases ctx with
    | some cid => exact hsome cid rfl
    | none => exact wait_some hsettled4 hthread4 (hnone rfl) hfinishing hfake

theorem settled_wakeSleepers {queue : List Nat} (h : s.Settled)
    (hqueue : ∀ x ∈ queue, s.stateOf x ≠ some RUNNING) (hs : wakeSleepers queue s = some s') :
    s'.Settled := by
  induction queue generalizing s with
  | nil =>
    cases hs
    exact h
  | cons th rest ih =>
    obtain ⟨t, hthread, hs⟩ := Option.bind_eq_some_iff.mp hs
    split at hs
    case isFalse =>
      cases hs
      exact h
    case isTrue =>
      obtain ⟨-, hs⟩ := Option.ite_none_right_eq_some.mp hs
      obtain ⟨s1, hs1, hs⟩ := Option.bind_eq_some_iff.mp hs
      have hrunning : t.state ≠ RUNNING := fun heq =>
        hqueue th List.mem_cons_self (heq ▸ (seen hthread).state)
      have hcalm := h th t hthread
      have hblocked : ThreadInfo.Calm { t with state := BLOCKED } :=
        ⟨fun hfake => absurd (hcalm.fake hfake).1 hrunning,
          fun hleaving => absurd (hcalm.leaving hleaving).1 hrunning, fun _ => .inr rfl⟩
      have hstates : ∀ x, s1.stateOf x = if x = th then some BLOCKED else s.stateOf x := by
        intro x
        rw [stateOf_wakeup hs1, stateOf_setThread]
      obtain ⟨t1, hthread1, hs1⟩ := Option.bind_eq_some_iff.mp hs1
      obtain ⟨-, heq⟩ := Option.ite_none_right_eq_some.mp hs1
      obtain rfl : { t with state := BLOCKED } = t1 :=
        Option.some.inj (threads_setThread.symm.trans hthread1)
      have hsettled : s1.Settled := by
        cases heq
        exact (h.but th).setThread_but.setThread ⟨hblocked.fake, hblocked.leaving, hblocked.left⟩
      refine ih (s := { s1 with sleepQueue := rest }) hsettled (fun x hx => ?_) hs
      have hx := hqueue x (List.mem_cons_of_mem th hx)
      show s1.stateOf x ≠ some RUNNING
      rw [hstates]
      split
      · simp
      · exact hx

theorem settled_tickLoop {queue avail : List Nat} (h : s.Settled)
    (hs : tickLoop queue avail s = some s') : s'.Settled := by
  induction queue generalizing s avail with
  | nil =>
    cases hs
    exact h
  | cons th rest ih =>
    unfold tickLoop at hs
    split at hs
    · cases hs
      exact h
    · obtain ⟨t, hthread, hs⟩ := Option.bind_eq_some_iff.mp hs
      split at hs
      · obtain ⟨v, hcur, hs⟩ := Option.bind_eq_some_iff.mp hs
        obtain ⟨victim, hvictim, hs⟩ := Option.bind_eq_some_iff.mp hs
        obtain ⟨s1, hs1, hs⟩ := Option.bind_eq_some_iff.mp hs
        obtain ⟨q, -, rfl⟩ := Option.map_eq_some_iff.mp hs1
        have hcalm := h v victim hvictim
        refine ih ?_ hs
        exact (h.but v).setThread ⟨hcalm.fake, hcalm.leaving, hcalm.left⟩
      · exact ih h hs

theorem settled_release (h : s.Settled) : s.release.Settled := by
  intro x t ht
  obtain ⟨t, hthread, rfl⟩ := Option.map_eq_some_iff.mp ht
  have hcalm := h x t hthread
  split
  case isTrue hsync =>
    refine ⟨fun hfake => ?_, hcalm.leaving, hcalm.left⟩
    cases hsync.symm.trans (hcalm.fake hfake).2
  case isFalse => exact hcalm

theorem Inv.endPhase_some {avail : List Nat} (h : Inv none [] s) (hrests : s.Rests)
    (hsettled : s.Settled) (hsynced : s.allSynced = true)
    (havail : avail.Perm (List.range s.numCores)) :
    ∃ s', s.endPhase avail = some s' ∧ s'.Settled := by
  obtain ⟨s1, hs1, -⟩ := Sleeps.callback hrests
  have hsettled1 : s1.Settled := by
    refine settled_wakeSleepers (s := s.newPhase) (settled_release hsettled) (fun x hx => ?_) hs1
    have hstate : s.newPhase.stateOf x = s.stateOf x := (newPhase_released s x).state
    rw [hstate, ((h.sleep x).mp hx).2]
    simp
  obtain ⟨-, s2, hs2, -⟩ := h.beforeTick hsynced havail hs1
  unfold Scheduler.endPhase
  rw [if_pos ⟨hsynced, havail⟩]
  change ∃ s', (Scheduler.wakeSleepers s.sleepQueue s.newPhase).bind _ = some s' ∧ _
  rw [hs1, Option.bind_some]
  split
  · exact ⟨s2, hs2, settled_tickLoop hsettled1 hs2⟩
  · exact ⟨s1, rfl, hsettled1⟩

theorem Inv.finish_some (h : Inv none [] s) (hsettled : s.Settled) (hok : HandoffOk (.finish gid) s)
    (hcalled : Called (.finish gid) s) : ∃ s', s.finish gid = some s' ∧ s'.Settled := by
  obtain ⟨t, ht, hawake, hunmarked⟩ := hcalled
  obtain ⟨th, hmap, hthread⟩ := Option.bind_eq_some_iff.mp ht
  have hcalm := hsettled th t hthread
  unfold Scheduler.finish
  rw [hmap, Option.bind_some, hthread, Option.bind_some]
  dsimp only
  rw [if_neg fun hfake => hfake.2 (hcalm.fake hfake.1).1]
  split
  case isTrue hleaves =>
    have hrunning : t.state = RUNNING := hleaves.elim (fun hfake => (hcalm.fake hfake).1) id
    exact ⟨_, rfl, (hsettled.but th).setThread
      ⟨by simp, fun _ => ⟨hrunning, hunmarked, rfl⟩, by simp⟩⟩
  case isFalse hstays =>
    have hrunning : t.state ≠ RUNNING := fun heq => hstays (.inr heq)
    refine Inv.finishRest_some (t := { t with finishing := .left }) ?_ ?_ threads_setThread hrunning
      hawake fun hqueued v hv => ?_
    · exact h.erase hmap hthread rfl rfl rfl rfl rfl (by simp)
    · exact (hsettled.but th).setThread_but
    · have hv : s.handoffOf v = some th := by
        rw [handoffOf_setThread] at hv
        split at hv
        · next heq => rw [heq, (seen hthread).handoff, hv]
        · exact hv
      have hlt : v < s.nextThread := by
        by_contra hle
        rw [handoffOf, h.fresh v (Nat.le_of_not_lt hle)] at hv
        cases hv
      exact hok.2 th hmap (hqueued ▸ (seen hthread).state) v hlt hv

theorem Rests.waiting (h : s.Rests) : ∀ x ∈ s.runQueue, s.wordOf x = some 1 :=
  fun x hx => (h.run x hx).2.2.2

theorem Inv.finishLeave_some (h : Inv none [] s) (hrests : s.Rests) (hsettled : s.Settled)
    (hcalled : Called (.finishLeave th) s) : ∃ s', s.finishLeave th = some s' ∧ s'.Settled := by
  obtain ⟨t, hthread, hleaving⟩ := hcalled
  obtain ⟨hrunning, hunmarked, hfake⟩ := (hsettled th t hthread).leaving hleaving
  have hcur : (s.contexts t.cid).curThread = some th := by
    rw [h.placed_used hthread (.inl hrunning)]
  have h1 : Inv none [] (s.setThread th { t with finishing := .left }) := by
    refine h.congr hthread ?_ ?_ ?_ ?_ ?_ ?_ (.inl rfl)
    case refine_6 => simp [hleaving]
    all_goals rfl
  unfold Scheduler.finishLeave
  rw [hthread, Option.bind_some, if_pos ⟨hleaving, hcur⟩]
  refine h1.leave_some (hsettled.but th).setThread_but (fun x hx => ?_) hcur threads_setThread
    hrunning hfake (by simp) fun _ => hunmarked
  rw [wordOf_setThread]
  split
  case isTrue heq =>
    have hword := hrests.waiting x hx
    rwa [heq, (seenAsleep hthread).1] at hword
  case isFalse => exact hrests.waiting x hx

/-- A call that the thread may make fails no assertion, unless `finish` takes a thread away that has
a handoff to make or that waits for one. -/
theorem Inv.step_some {op : Op} (h : Inv none [] s) (hrests : s.Rests) (hsettled : s.Settled)
    (hok : HandoffOk op s) (hcalled : Called op s) : ∃ s', step op s = some s' ∧ s'.Settled := by
  cases op with
  | start gid mask =>
    exact ⟨_, if_pos hcalled, (hsettled.but s.nextThread).setThread
      (ThreadInfo.calm_of_no rfl rfl)⟩
  | finish gid => exact h.finish_some hsettled hok hcalled
  | finishLeave th => exact h.finishLeave_some hrests hsettled hcalled
  | finishEnd th =>
    obtain ⟨t, hthread, hleft⟩ := hcalled
    have hstate := (hsettled th t hthread).left hleft
    obtain ⟨s', hs', hsettled'⟩ := h.finishRest_some (hsettled.but th) hthread (by grind) (by grind)
      (by grind)
    refine ⟨s', ?_, hsettled'⟩
    show (s.threads th).bind _ = some s'
    rw [hthread, Option.bind_some, if_pos hleft, hs']
  | join gid => exact h.join_some hsettled hcalled
  | leave cid =>
    obtain ⟨t, ht, hstate, hplace, hfinishing, hfake⟩ := hcalled
    obtain ⟨th, hcur, hthread⟩ := Option.bind_eq_some_iff.mp ht
    obtain ⟨s', hs', hsettled'⟩ := h.leave_some (hsettled.but th) hrests.waiting hcur hthread hstate
      hfake (by simp [hfinishing]) (by simp [hfinishing])
    refine ⟨s', ?_, hsettled'⟩
    show (s.contexts cid).curThread.bind _ = some s'
    rw [hcur, Option.bind_some, hthread, Option.bind_some, if_pos ⟨hplace, hfinishing⟩, hs']
  | sync cid =>
    obtain ⟨t, ht, ⟨hstate, hplace, hfinishing, hfake⟩, hunmarked⟩ := hcalled
    obtain ⟨th, hcur, hthread⟩ := Option.bind_eq_some_iff.mp ht
    refine ⟨s.setThread th { t with place := .inSync }, ?_,
      hsettled.setThread (ThreadInfo.calm_of_no hfinishing hfake)⟩
    show (s.contexts cid).curThread.bind _ = _
    rw [hcur, Option.bind_some, hthread, Option.bind_some,
      if_pos ⟨hstate, hplace, hfinishing, hunmarked⟩]
  | syncEnd th =>
    obtain ⟨t, hthread, hplace, hfinishing⟩ := hcalled
    exact h.syncEnd_some hrests hsettled hthread hplace hfinishing
  | waitEnd th =>
    obtain ⟨t, hthread, hplace, hword, hfinishing⟩ := hcalled
    have hfake : t.fakeLeave = false := by
      by_contra hfake
      have helsewhere := ((hsettled th t hthread).fake (eq_true_of_ne_false hfake)).2
      cases hplace.symm.trans helsewhere
    refine ⟨s.setThread th { t with place := .elsewhere }, ?_,
      hsettled.setThread (ThreadInfo.calm_of_no hfinishing hfake)⟩
    show (s.threads th).bind _ = _
    rw [hthread, Option.bind_some, if_pos ⟨hplace, hword, hfinishing⟩]
  | syscallLeave cid =>
    obtain ⟨t, ht, ⟨hstate, hplace, hfinishing, hfake⟩, hunmarked⟩ := hcalled
    obtain ⟨th, hcur, hthread⟩ := Option.bind_eq_some_iff.mp ht
    have hown : t.cid = cid :=
      Option.some.inj ((seen hthread).cid.symm.trans (h.owner hcur).2.2.1)
    refine ⟨s.setThread th { t with fakeLeave := true }, ?_,
      hsettled.setThread ⟨fun _ => ⟨hstate, hplace⟩, by simp [hfinishing], by simp [hfinishing]⟩⟩
    show (s.contexts cid).curThread.bind _ = _
    rw [hcur, Option.bind_some, hthread, Option.bind_some,
      if_pos ⟨hplace, hfinishing, hown, hstate, hunmarked, hfake⟩]
  | finishFakeLeave th =>
    obtain ⟨t, hthread, hfake⟩ := hcalled
    have hcalm := hsettled th t hthread
    refine ⟨s.setThread th { t with fakeLeave := false }, ?_, hsettled.setThread
      ⟨by simp, fun hleaving => ⟨(hcalm.leaving hleaving).1, (hcalm.leaving hleaving).2.1, rfl⟩,
        hcalm.left⟩⟩
    show (s.threads th).bind _ = _
    rw [hthread, Option.bind_some, if_pos ⟨hfake, (hcalm.fake hfake).1⟩]
  | markForSleep gid wakeupPhase =>
    obtain ⟨t, ht, hplace, hunmarked, -⟩ := hcalled
    obtain ⟨th, hmap, hthread⟩ := Option.bind_eq_some_iff.mp ht
    have hcalm := hsettled th t hthread
    have hfinishing := h.mapped hmap hthread
    refine ⟨s.setThread th
      { t with markedForSleep := true, wakeupPhase := wakeupPhase, futexWord := 1 }, ?_,
      hsettled.setThread ⟨hcalm.fake, by simp [hfinishing], by simp [hfinishing]⟩⟩
    show (s.gidMap gid).bind _ = _
    rw [hmap, Option.bind_some, hthread, Option.bind_some, if_pos ⟨hplace, hunmarked⟩]
  | notifySleepEnd gid =>
    obtain ⟨t, ht, hunmarked, hstate⟩ := hcalled
    obtain ⟨th, hmap, hthread⟩ := Option.bind_eq_some_iff.mp ht
    have hfinishing := h.mapped hmap hthread
    show ∃ s', (s.gidMap gid).bind _ = some s' ∧ _
    rw [hmap, Option.bind_some, hthread, Option.bind_some, if_neg (by simp [hunmarked])]
    split
    case isTrue => exact ⟨s, rfl, hsettled⟩
    case isFalse hblocked =>
      have hsleeping := hstate.resolve_left hblocked
      have hmem := (h.sleep th).mpr ⟨by simp, hsleeping ▸ (seen hthread).state⟩
      have hcalm := hsettled th t hthread
      obtain ⟨-, hfake⟩ := hcalm.plain (by simp [hsleeping]) (.inr (by simp [hsleeping]))
      rw [if_pos hsleeping, removeSleep_mem hmem, Option.map_some]
      exact ⟨_, rfl, hsettled.setThread (ThreadInfo.calm_of_no hfinishing hfake)⟩
  | endPhase avail => exact h.endPhase_some hrests hsettled hcalled.1 hcalled.2

/-- What holds between two steps of a run of such calls. -/
structure Healthy (s : Scheduler) : Prop where
  inv : Inv none [] s
  rests : s.Rests
  settled : s.Settled

theorem Healthy.next {op : Op} (h : s.Healthy) (hop : HandoffOk op s ∧ Called op s) :
    ∃ s', step op s = some s' ∧ s'.Healthy := by
  obtain ⟨s', hs', hsettled⟩ := h.inv.step_some h.rests h.settled hop.1 hop.2
  have hrests := (@Rests.next op s s' 0 0 h.rests (called_sleepOk hop.2) hs').1
  exact ⟨s', hs', inv_step op s s' h.inv hop.1.1 hs', hrests, hsettled⟩

end Scheduler

open Scheduler

/-- In every run in which `finish` makes no thread leave that has a handoff to make, and takes no
queued thread away that waits for one, no handoff is lost, neither in a state nor by the next step;
and if all calls are such that the thread may make, the run fails no assertion. -/
theorem run_hands_off {numCores : Nat} {schedQuantum : UInt64} {ops : List Op}
    (hok : Lib.Along step HandoffOk ops (init numCores schedQuantum)) :
    (∀ s, Lib.run step ops (init numCores schedQuantum) = some s → s.HandedOff ∧
      ∀ op s', HandoffOk op s → step op s = some s' →
        ∀ v th, s.handoffOf v = some th → s'.Kept th) ∧
    (Lib.Along step Called ops (init numCores schedQuantum) →
      ∃ s, Lib.run step ops (init numCores schedQuantum) = some s) := by
  have hinit := inv_init numCores schedQuantum
  refine ⟨fun s hrun => ?_, fun hcalled => ?_⟩
  · have hinv : s.Inv none [] := Lib.run_preserves
      (fun op s s' h hok hs => inv_step op s s' h hok.1 hs) hinit hok hrun
    exact ⟨hinv.handedOff, fun op s' hop hs v th hv =>
      (inv_step op s s' hinv hop.1 hs).kept (hinv.waits_step hv hs)⟩
  · have hhealthy : (init numCores schedQuantum).Healthy :=
      ⟨hinit, init_rests _ _, init_settled _ _⟩
    obtain ⟨s, hs, -⟩ := Lib.run_keeps (fun op s => Healthy.next) ops hhealthy
      (Lib.along_and hok hcalled)
    exact ⟨s, hs⟩

theorem run_hands_off_one :
    ∃ s, Lib.run step handover (init 1 1) = some s ∧ s.HandedOff := by
  have hok : Lib.Along step HandoffOk handover (init 1 1) := by decide
  obtain ⟨hsafe, hruns⟩ := run_hands_off hok
  obtain ⟨s, hs⟩ := hruns (by decide)
  exact ⟨s, hs, (hsafe s hs).1⟩

/-- A process is killed while one of its threads has a handoff to make. -/
def killed : List Op := handover ++ [.finish 0, .finishLeave 0, .finishEnd 0]

/-- The other thread is left queued, in no queue, and nothing refers to it.  And when it is the one
that is taken away, the assertion that it is in the `runQueue` fails. -/
theorem finish_strands :
    (∃ s, Lib.run step killed (init 1 1) = some s ∧ s.stateOf 1 = some QUEUED ∧ ¬ s.HandedOff) ∧
    ∃ s, Lib.run step handover (init 1 1) = some s ∧ s.handoffOf 0 = some 1 ∧
      step (.finish 1) s = none := by
  refine ⟨?_, _, rfl, rfl, rfl⟩
  have hstate : (Lib.run step killed (init 1 1)).bind (·.stateOf 1) = some QUEUED := rfl
  have hqueue : (Lib.run step killed (init 1 1)).map (·.runQueue) = some [] := rfl
  have hhandoff : ∀ v, (Lib.run step killed (init 1 1)).bind (·.handoffOf v) ≠ some 1 := by
    intro v hv
    match v, hv with
    | 0, hv => exact nomatch hv
    | 1, hv => exact nomatch hv
    | v + 2, hv => exact nomatch (show (none : Option Nat) = some 1 from hv)
  obtain ⟨s, hs⟩ : ∃ s, Lib.run step killed (init 1 1) = some s := ⟨_, rfl⟩
  simp only [hs, Option.bind_some, Option.map_some, Option.some.injEq] at hstate hqueue hhandoff
  refine ⟨s, hs, hstate, fun h => ?_⟩
  obtain ⟨v, -, hv, -⟩ | hmem | hrunning := h.queued 1 hstate
  · exact hhandoff v hv
  · rw [hqueue] at hmem
    cases hmem
  · cases hstate.symm.trans hrunning

end Doppelganger.Scheduling
