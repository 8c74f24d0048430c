import Doppelganger.Sched.Scheduler
import Mathlib.Data.List.Basic

/-! What holds of the scheduler between its steps, and what its parts keep of it.  Inside a step a
context may be a `hole`, idle and not in the `freeList`, and some threads may be `loose`, in no
queue whatever their state says; each part of a step has a lemma that says how it changes these. -/

namespace Doppelganger.Scheduling

open List ThreadState

namespace Scheduler

variable (s : Scheduler)

/-! ### What the invariant sees of a thread -/

def stateOf (th : Nat) : Option ThreadState := (s.threads th).map (·.state)

def cidOf (th : Nat) : Option Nat := (s.threads th).map (·.cid)

def placeOf (th : Nat) : Option Place := (s.threads th).map (·.place)

def handoffOf (th : Nat) : Option Nat := (s.threads th).bind (·.handoffThread)

def allowed (th cid : Nat) : Bool := (s.threads th).any (·.allows cid)

/-- The `gid` of a thread that `finish` has not erased. -/
def gidOf (th : Nat) : Option UInt32 :=
  (s.threads th).bind fun t => if t.finishing = .no then some t.gid else none

/-- The thread has a context. -/
def placedOn (th : Nat) : Prop := s.stateOf th = some RUNNING ∨ s.stateOf th = some OUT

variable {s} {th x cid : Nat} {t : ThreadInfo} {ctx : ContextInfo}

@[simp, grind =] theorem stateOf_setThread :
    (s.setThread th t).stateOf x = if x = th then some t.state else s.stateOf x := by
  unfold stateOf setThread
  by_cases h : x = th <;> simp [h]

@[simp, grind =] theorem cidOf_setThread :
    (s.setThread th t).cidOf x = if x = th then some t.cid else s.cidOf x := by
  unfold cidOf setThread
  by_cases h : x = th <;> simp [h]

@[simp, grind =] theorem placeOf_setThread :
    (s.setThread th t).placeOf x = if x = th then some t.place else s.placeOf x := by
  unfold placeOf setThread
  by_cases h : x = th <;> simp [h]

@[simp, grind =] theorem handoffOf_setThread :
    (s.setThread th t).handoffOf x = if x = th then t.handoffThread else s.handoffOf x := by
  unfold handoffOf setThread
  by_cases h : x = th <;> simp [h]

@[simp, grind =] theorem allowed_setThread :
    (s.setThread th t).allowed x cid = if x = th then t.allows cid else s.allowed x cid := by
  unfold allowed setThread
  by_cases h : x = th <;> simp [h]

@[simp, grind =] theorem gidOf_setThread : (s.setThread th t).gidOf x =
    if x = th then (if t.finishing = .no then some t.gid else none) else s.gidOf x := by
  unfold gidOf setThread
  by_cases h : x = th <;> simp [h]

@[simp, grind =] theorem stateOf_setContext : (s.setContext cid ctx).stateOf x = s.stateOf x := rfl

@[simp, grind =] theorem cidOf_setContext : (s.setContext cid ctx).cidOf x = s.cidOf x := rfl

@[simp, grind =] theorem placeOf_setContext : (s.setContext cid ctx).placeOf x = s.placeOf x := rfl

@[simp, grind =] theorem handoffOf_setContext :
    (s.setContext cid ctx).handoffOf x = s.handoffOf x := rfl

@[simp, grind =] theorem allowed_setContext {c : Nat} :
    (s.setContext cid ctx).allowed x c = s.allowed x c := rfl

@[simp, grind =] theorem gidOf_setContext : (s.setContext cid ctx).gidOf x = s.gidOf x := rfl

@[simp, grind =] theorem contexts_setContext :
    (s.setContext cid ctx).contexts x = if x = cid then ctx else s.contexts x := by
  unfold setContext
  by_cases h : x = cid <;> simp [h]

@[simp, grind =] theorem contexts_setThread : (s.setThread th t).contexts x = s.contexts x := rfl

@[simp, grind =] theorem numCores_setThread : (s.setThread th t).numCores = s.numCores := rfl

@[simp, grind =] theorem freeList_setThread : (s.setThread th t).freeList = s.freeList := rfl

@[simp, grind =] theorem runQueue_setThread : (s.setThread th t).runQueue = s.runQueue := rfl

@[simp, grind =] theorem outQueue_setThread : (s.setThread th t).outQueue = s.outQueue := rfl

@[simp, grind =] theorem sleepQueue_setThread : (s.setThread th t).sleepQueue = s.sleepQueue := rfl

@[simp, grind =] theorem gidMap_setThread {g : UInt32} :
    (s.setThread th t).gidMap g = s.gidMap g := rfl

@[simp, grind =] theorem nextThread_setThread : (s.setThread th t).nextThread = s.nextThread := rfl

@[simp, grind =] theorem numCores_setContext : (s.setContext cid ctx).numCores = s.numCores := rfl

@[simp, grind =] theorem freeList_setContext : (s.setContext cid ctx).freeList = s.freeList := rfl

@[simp, grind =] theorem runQueue_setContext : (s.setContext cid ctx).runQueue = s.runQueue := rfl

@[simp, grind =] theorem outQueue_setContext : (s.setContext cid ctx).outQueue = s.outQueue := rfl

@[simp, grind =] theorem sleepQueue_setContext :
    (s.setContext cid ctx).sleepQueue = s.sleepQueue := rfl

@[simp, grind =] theorem gidMap_setContext {g : UInt32} :
    (s.setContext cid ctx).gidMap g = s.gidMap g := rfl

@[simp, grind =] theorem nextThread_setContext :
    (s.setContext cid ctx).nextThread = s.nextThread := rfl

@[simp, grind =] theorem placedOn_setThread : (s.setThread th t).placedOn x ↔
    if x = th then t.state = RUNNING ∨ t.state = OUT else s.placedOn x := by
  unfold placedOn
  by_cases h : x = th <;> simp [h]

@[simp, grind =] theorem placedOn_setContext :
    (s.setContext cid ctx).placedOn x ↔ s.placedOn x := Iff.rfl

/-! ### The invariant -/

structure Inv (hole : Option Nat) (loose : List Nat) (s : Scheduler) : Prop where
  free_nodup : s.freeList.Nodup
  run_nodup : s.runQueue.Nodup
  out_nodup : s.outQueue.Nodup
  sleep_nodup : s.sleepQueue.Nodup
  free : ∀ cid, cid ∈ s.freeList ↔
    cid < s.numCores ∧ (s.contexts cid).state = .IDLE ∧ hole ≠ some cid
  vacant : ∀ cid, hole = some cid → cid < s.numCores ∧ s.contexts cid = ⟨.IDLE, none⟩
  context : ∀ cid, s.contexts cid = ⟨.IDLE, none⟩ ∨ cid < s.numCores ∧
    ∃ th, s.contexts cid = ⟨.USED, some th⟩ ∧ s.cidOf th = some cid ∧ s.placedOn th
  placed : ∀ th, s.placedOn th → ∃ cid, s.cidOf th = some cid ∧
    s.contexts cid = ⟨.USED, some th⟩ ∧ s.allowed th cid = true
  run : ∀ th, th ∈ s.runQueue ↔
    th ∉ loose ∧ (∀ v, s.handoffOf v ≠ some th) ∧ s.stateOf th = some QUEUED
  out : ∀ th, th ∈ s.outQueue ↔ th ∉ loose ∧ s.stateOf th = some OUT
  sleep : ∀ th, th ∈ s.sleepQueue ↔ th ∉ loose ∧ s.stateOf th = some SLEEPING
  handoff : ∀ v th, s.handoffOf v = some th → s.stateOf v = some RUNNING ∧
    s.placeOf v = some .synced ∧ th ∉ loose ∧ s.stateOf th = some QUEUED ∧
    ∃ cid, s.cidOf v = some cid ∧ s.allowed th cid = true
  unique : ∀ v v' th, s.handoffOf v = some th → s.handoffOf v' = some th → v = v'
  busy : ∀ th ∈ s.runQueue, ∀ cid < s.numCores, s.allowed th cid = true → hole ≠ some cid →
    ∃ v, (s.contexts cid).curThread = some v ∧ s.stateOf v = some RUNNING
  gid : ∀ g th, s.gidMap g = some th ↔ s.gidOf th = some g
  fresh : ∀ th, s.nextThread ≤ th → s.threads th = none
  cid : ∀ th cid, s.cidOf th = some cid → cid < s.numCores

variable {hole : Option Nat} {loose : List Nat} {s' : Scheduler} {t' : ThreadInfo}

/-- What the invariant sees of a thread, at once. -/
structure Seen (s : Scheduler) (th : Nat) (t : ThreadInfo) : Prop where
  state : s.stateOf th = some t.state
  cid : s.cidOf th = some t.cid
  place : s.placeOf th = some t.place
  handoff : s.handoffOf th = t.handoffThread
  allowed : ∀ cid, s.allowed th cid = t.allows cid
  gid : s.gidOf th = if t.finishing = .no then some t.gid else none

theorem seen (h : s.threads th = some t) : Seen s th t := by
  refine ⟨?_, ?_, ?_, ?_, fun cid => ?_, ?_⟩
  · rw [stateOf, h, Option.map_some]
  · rw [cidOf, h, Option.map_some]
  · rw [placeOf, h, Option.map_some]
  · rw [handoffOf, h, Option.bind_some]
  · rw [Scheduler.allowed, h, Option.any_some]
  · rw [gidOf, h, Option.bind_some]

/-- The invariant depends on the threads only through what it sees of them. -/
theorem Inv.rethread (h : Inv hole loose s) {threads : Nat → Option ThreadInfo}
    {gidMap : UInt32 → Option Nat} (hs' : s' = { s with threads := threads, gidMap := gidMap })
    (hstate : ∀ x, s'.stateOf x = s.stateOf x)
    (hcid : ∀ x, s'.cidOf x = s.cidOf x) (hhandoff : ∀ x, s'.handoffOf x = s.handoffOf x)
    (hallowed : ∀ x cid, s'.allowed x cid = s.allowed x cid)
    (hgid : ∀ g x, gidMap g = some x ↔ s'.gidOf x = some g)
    (hplace : ∀ x y, s.handoffOf x = some y → s.placeOf x = some .synced →
      s'.placeOf x = some .synced)
    (hnone : ∀ x, s.threads x = none → threads x = none) : Inv hole loose s' := by
  have hplaced : ∀ x, s'.placedOn x ↔ s.placedOn x := by simp [placedOn, hstate]
  constructor
  case fresh => subst hs'; exact fun x hx => hnone x (h.fresh x hx)
  case handoff =>
    intro v x hv
    rw [hhandoff] at hv
    obtain ⟨hrunning, hsynced, hrest⟩ := h.handoff v x hv
    exact ⟨by rw [hstate, hrunning], hplace v x hv hsynced, by simpa only [hstate, hcid, hallowed]⟩
  case free_nodup => subst hs'; exact h.free_nodup
  case run_nodup => subst hs'; exact h.run_nodup
  case out_nodup => subst hs'; exact h.out_nodup
  case sleep_nodup => subst hs'; exact h.sleep_nodup
  case free => subst hs'; exact h.free
  case vacant => subst hs'; exact h.vacant
  case context => simp only [hplaced, hcid]; subst hs'; exact h.context
  case placed => simp only [hplaced, hcid, hallowed]; subst hs'; exact h.placed
  case run => simp only [hstate, hhandoff]; subst hs'; exact h.run
  case out => simp only [hstate]; subst hs'; exact h.out
  case sleep => simp only [hstate]; subst hs'; exact h.sleep
  case unique => simpa only [hhandoff] using h.unique
  case busy => simp only [hstate, hallowed]; subst hs'; exact h.busy
  case gid => subst hs'; exact hgid
  case cid => simp only [hcid]; subst hs'; exact h.cid

/-- The rest of a thread may change. -/
theorem Inv.congr (h : Inv hole loose s) (hthread : s.threads th = some t)
    (hstate : t'.state = t.state) (hcid : t'.cid = t.cid) (hmask : t'.mask = t.mask)
    (hhandoff : t'.handoffThread = t.handoffThread) (hgid : t'.gid = t.gid)
    (hfinishing : t'.finishing = .no ↔ t.finishing = .no)
    (hplace : t'.place = t.place ∨ t.handoffThread = none) :
    Inv hole loose (s.setThread th t') := by
  have hseen := seen hthread
  have hallows : ∀ cid, t'.allows cid = t.allows cid := by simp [ThreadInfo.allows, hmask]
  have heq : s.setThread th t' =
    { s with threads := Function.update s.threads th (some t'), gidMap := s.gidMap } := rfl
  apply h.rethread heq
  · grind [hseen.state]
  · grind [hseen.cid]
  · grind [hseen.handoff]
  · grind [hseen.allowed]
  · grind [h.gid, hseen.gid]
  · grind [hseen.place, hseen.handoff]
  · intro x hx
    have hne : x ≠ th := by
      rintro rfl
      rw [hx] at hthread
      cases hthread
    simpa [hne] using hx

theorem placedOn_iff (h : s.threads th = some t) :
    s.placedOn th ↔ t.state = RUNNING ∨ t.state = OUT := by
  simp [placedOn, (seen h).state]

theorem fresh_setThread (h : ∀ x, s.nextThread ≤ x → s.threads x = none)
    (hthread : s.threads th = some t) :
    ∀ x, (s.setThread th t').nextThread ≤ x → (s.setThread th t').threads x = none := by
  intro x hx
  have hne : x ≠ th := by
    rintro rfl
    rw [h x hx] at hthread
    cases hthread
  simpa [setThread, hne] using h x hx

theorem cid_setThread (h : ∀ x c, s.cidOf x = some c → c < s.numCores)
    (hcid : t'.cid < s.numCores) :
    ∀ x c, (s.setThread th t').cidOf x = some c → c < (s.setThread th t').numCores := by
  intro x c hx
  rw [cidOf_setThread] at hx
  split at hx
  · cases hx
    exact hcid
  · exact h x c hx

/-- Only a scheduled thread has a handoff to make. -/
theorem Inv.handoffOf_none (h : Inv hole loose s) (hstate : s.stateOf th ≠ some RUNNING) :
    s.handoffOf th = none := by
  rw [Option.eq_none_iff_forall_ne_some]
  exact fun dst hdst => hstate (h.handoff th dst hdst).1

theorem Inv.handoff_none (h : Inv hole loose s) (hthread : s.threads th = some t)
    (hstate : t.state ≠ RUNNING) : t.handoffThread = none := by
  rw [← (seen hthread).handoff]
  apply h.handoffOf_none
  rw [(seen hthread).state]
  exact fun heq => hstate (Option.some.inj heq)

/-- Only a thread that is back from the barrier has a handoff to make. -/
theorem Inv.handoff_unsynced (h : Inv hole loose s) (hthread : s.threads th = some t)
    (hplace : t.place ≠ .synced) : t.handoffThread = none := by
  rw [← (seen hthread).handoff, Option.eq_none_iff_forall_ne_some]
  intro dst hdst
  have hsynced := (h.handoff th dst hdst).2.1
  rw [(seen hthread).place] at hsynced
  exact hplace (Option.some.inj hsynced)

theorem Inv.owner (h : Inv hole loose s) (hcur : (s.contexts cid).curThread = some th) :
    cid < s.numCores ∧ s.contexts cid = ⟨.USED, some th⟩ ∧ s.cidOf th = some cid ∧
      s.placedOn th := by
  obtain hidle | ⟨hlt, v, hused, hown⟩ := h.context cid
  · rw [hidle] at hcur
    cases hcur
  · rw [hused] at hcur
    cases hcur
    exact ⟨hlt, hused, hown⟩

/-- A thread that is in no queue changes, and has a context after that if it had one before. -/
theorem Inv.settle (h : Inv hole loose s) (hthread : s.threads th = some t) (hloose : th ∈ loose)
    (hcid : t'.cid = t.cid) (hmask : t'.mask = t.mask) (hgid : t'.gid = t.gid)
    (hfinishing : t'.finishing = t.finishing) (hhandoff : t.handoffThread = none)
    (hhandoff' : t'.handoffThread = none)
    (hstate : (t'.state = RUNNING ∨ t'.state = OUT) ↔ (t.state = RUNNING ∨ t.state = OUT))
    (hbusy : t.state = RUNNING → t'.state = RUNNING ∨ ∀ x ∈ s.runQueue, s.allowed x t.cid = false) :
    Inv hole loose (s.setThread th t') := by
  have hseen := seen hthread
  have hplaced := placedOn_iff hthread
  have hallows : ∀ cid, t'.allows cid = t.allows cid := by simp [ThreadInfo.allows, hmask]
  have hhand : ∀ x, (s.setThread th t').handoffOf x = s.handoffOf x := by grind [hseen.handoff]
  constructor
  case free_nodup => exact h.free_nodup
  case run_nodup => exact h.run_nodup
  case out_nodup => exact h.out_nodup
  case sleep_nodup => exact h.sleep_nodup
  case free => exact h.free
  case vacant => exact h.vacant
  case context => grind [h.context, hseen.cid]
  case placed => grind [h.placed, hseen.cid, hseen.allowed]
  case run =>
    intro x
    rw [runQueue_setThread, h.run]
    simp only [hhand]
    grind
  case out => grind [h.out, hseen.state]
  case sleep => grind [h.sleep, hseen.state]
  case handoff => grind [h.handoff, hseen.state, hseen.handoff, hseen.cid]
  case unique => simpa only [hhand] using h.unique
  case busy => grind [h.busy, h.context, hseen.state, hseen.allowed, hseen.cid]
  case gid => grind [h.gid, hseen.gid]
  case fresh => exact fresh_setThread h.fresh hthread
  case cid => exact cid_setThread h.cid (hcid ▸ h.cid th t.cid hseen.cid)

theorem Inv.schedule (h : Inv (some cid) (th :: loose) s) (hallow : s.allowed th cid = true)
    (hs : s.schedule th cid = some s') : Inv none loose s' := by
  obtain ⟨t, hthread, hs⟩ := Option.bind_eq_some_iff.mp hs
  obtain ⟨⟨hstate, -, -⟩, heq⟩ := Option.ite_none_right_eq_some.mp hs
  clear hs
  have hseen := seen hthread
  have hplaced := placedOn_iff hthread
  have hhandoff : t.handoffThread = none := h.handoff_none hthread (by grind)
  have hvacant := h.vacant cid rfl
  have hth : th ∉ s.runQueue := by grind [h.run]
  generalize ht' : { t with state := RUNNING, cid := cid } = t' at heq
  have hallows : ∀ c, t'.allows c = t.allows c := by subst ht'; exact fun _ => rfl
  have hhand : ∀ x, (s.setThread th t').handoffOf x = s.handoffOf x := by grind [hseen.handoff]
  cases heq
  constructor
  case free_nodup => exact h.free_nodup
  case run_nodup => exact h.run_nodup
  case out_nodup => exact h.out_nodup
  case sleep_nodup => exact h.sleep_nodup
  case free => grind [h.free]
  case vacant => grind
  case context => 
    intro c
    have hown := h.context c
    grind
  case placed => grind [h.placed, hseen.allowed]
  case run =>
    intro x
    simp only [handoffOf_setContext, hhand]
    grind [h.run]
  case out => grind [h.out, hseen.state]
  case sleep => grind [h.sleep, hseen.state]
  case handoff => grind [h.handoff, hseen.state, hseen.handoff, hseen.cid]
  case unique => simpa only [handoffOf_setContext, hhand] using h.unique
  case busy =>
    intro x hx c hc hallowed _
    have hne : x ≠ th := fun heq => hth (heq ▸ hx)
    by_cases hc' : c = cid
    · exact ⟨th, by simp [hc'], by simp [← ht']⟩
    · obtain ⟨v, hcur, hv⟩ := h.busy x hx c hc (by simpa [hne] using hallowed)
        (fun heq => hc' (Option.some.inj heq).symm)
      have hne' : v ≠ th := by
        rintro rfl
        grind [hseen.state]
      exact ⟨v, by simpa [hc'] using hcur, by simpa [hne'] using hv⟩
  case gid => grind [h.gid, hseen.gid]
  case fresh => exact fresh_setThread h.fresh hthread
  case cid => exact cid_setThread h.cid (ht' ▸ hvacant.1)

theorem Inv.deschedule (h : Inv none loose s) {targetState : ThreadState}
    (hs : s.deschedule th cid targetState = some s')
    (hhandoff : s.handoffOf th = none) (hout : th ∉ s.outQueue) :
    Inv (some cid) (th :: loose) s' := by
  obtain ⟨t, hthread, hs⟩ := Option.bind_eq_some_iff.mp hs
  obtain ⟨⟨hstate, hused, hcid, hcur, htarget⟩, heq⟩ := Option.ite_none_right_eq_some.mp hs
  clear hs
  have hseen := seen hthread
  have hplaced := placedOn_iff hthread
  have hcores := h.cid th t.cid hseen.cid
  generalize ht' : { t with state := targetState } = t' at heq
  have hallows : ∀ c, t'.allows c = t.allows c := by subst ht'; exact fun _ => rfl
  have hhand : ∀ x, (s.setThread th t').handoffOf x = s.handoffOf x := by grind [hseen.handoff]
  cases heq
  constructor
  case free_nodup => exact h.free_nodup
  case run_nodup => exact h.run_nodup
  case out_nodup => exact h.out_nodup
  case sleep_nodup => exact h.sleep_nodup
  case free => grind [h.free]
  case vacant => grind
  case context => 
    intro c
    by_cases hc : c = cid
    · exact .inl (by simp [hc])
    · obtain hidle | ⟨hlt, v, hused, hown, hv⟩ := h.context c
      · exact .inl (by simpa [hc] using hidle)
      · have hne : v ≠ th := by
          rintro rfl
          exact hc (Option.some.inj (hown.symm.trans (hcid ▸ hseen.cid)))
        exact .inr ⟨hlt, v, by simpa [hc] using hused, by simpa [hne] using hown,
          by simpa [hne] using hv⟩
  case placed => grind [h.placed, hseen.allowed]
  case run =>
    intro x
    simp only [handoffOf_setContext, hhand]
    grind [h.run, hseen.state]
  case out => grind [h.out, hseen.state]
  case sleep => grind [h.sleep, hseen.state]
  case handoff => grind [h.handoff, hseen.state, hseen.handoff, hseen.cid]
  case unique => simpa only [handoffOf_setContext, hhand] using h.unique
  case busy =>
    intro x hx c hc hallowed hc'
    have hc' : c ≠ cid := fun heq => hc' (heq ▸ rfl)
    obtain ⟨v, hcur', hv⟩ := h.busy x hx c hc (by grind [hseen.allowed]) (by simp)
    have hne' : v ≠ th := by
      rintro rfl
      exact hc' (Option.some.inj ((h.owner hcur').2.2.1.symm.trans (hcid ▸ hseen.cid)))
    exact ⟨v, by simpa [hc'] using hcur', by simpa [hne'] using hv⟩
  case gid => grind [h.gid, hseen.gid]
  case fresh => exact fresh_setThread h.fresh hthread
  case cid => exact cid_setThread h.cid (ht' ▸ hcores)

end Scheduler

end Doppelganger.Scheduling
