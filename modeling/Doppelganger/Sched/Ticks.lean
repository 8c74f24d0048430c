import Doppelganger.Sched.Queues

/-! What the scheduling functions of the scheduler keep, and the end of a phase. -/

namespace Doppelganger.Scheduling

open List ThreadState

namespace Scheduler

variable {s s' : Scheduler} {th x cid : Nat} {t : ThreadInfo} {hole : Option Nat}
variable {loose : List Nat}

theorem schedule_eq (hs : s.schedule th cid = some s') : ∃ t, s.threads th = some t ∧
    s' = (s.setThread th { t with state := .RUNNING, cid := cid }).setContext cid
      ⟨.USED, some th⟩ := by
  obtain ⟨t, hthread, hs⟩ := Option.bind_eq_some_iff.mp hs
  obtain ⟨-, heq⟩ := Option.ite_none_right_eq_some.mp hs
  exact ⟨t, hthread, (Option.some.inj heq).symm⟩

theorem deschedule_eq {targetState : ThreadState} (hs : s.deschedule th cid targetState = some s') :
    ∃ t, s.threads th = some t ∧ (t.state = RUNNING ∨ t.state = OUT) ∧ cid = t.cid ∧
      (s.contexts cid).curThread = some th ∧
      s' = (s.setThread th { t with state := targetState }).setContext cid ⟨.IDLE, none⟩ := by
  obtain ⟨t, hthread, hs⟩ := Option.bind_eq_some_iff.mp hs
  obtain ⟨⟨hstate, -, hcid, hcur, -⟩, heq⟩ := Option.ite_none_right_eq_some.mp hs
  exact ⟨t, hthread, hstate, hcid, hcur, (Option.some.inj heq).symm⟩

theorem stateOf_deschedule {targetState : ThreadState}
    (hs : s.deschedule th cid targetState = some s') :
    s'.stateOf x = if x = th then some targetState else s.stateOf x := by
  obtain ⟨t, -, -, -, -, rfl⟩ := deschedule_eq hs
  rw [stateOf_setContext, stateOf_setThread]

theorem stateOf_schedule (hs : s.schedule th cid = some s') :
    s'.stateOf x = if x = th then some RUNNING else s.stateOf x := by
  obtain ⟨t, -, rfl⟩ := schedule_eq hs
  rw [stateOf_setContext, stateOf_setThread]

theorem stateOf_wakeup {needsJoin : Bool} (hs : s.wakeup th needsJoin = some s') :
    s'.stateOf x = s.stateOf x := by
  obtain ⟨t, hthread, hs⟩ := Option.bind_eq_some_iff.mp hs
  obtain ⟨-, heq⟩ := Option.ite_none_right_eq_some.mp hs
  cases heq
  grind [(seen hthread).state]

theorem outQueue_deschedule {targetState : ThreadState}
    (hs : s.deschedule th cid targetState = some s') : s'.outQueue = s.outQueue := by
  obtain ⟨t, -, -, -, -, rfl⟩ := deschedule_eq hs
  rfl

theorem outQueue_schedule (hs : s.schedule th cid = some s') : s'.outQueue = s.outQueue := by
  obtain ⟨t, -, rfl⟩ := schedule_eq hs
  rfl

theorem outQueue_wakeup {needsJoin : Bool} (hs : s.wakeup th needsJoin = some s') :
    s'.outQueue = s.outQueue := by
  obtain ⟨t, -, hs⟩ := Option.bind_eq_some_iff.mp hs
  obtain ⟨-, heq⟩ := Option.ite_none_right_eq_some.mp hs
  cases heq
  rfl

theorem allowed_deschedule {targetState : ThreadState} {c : Nat}
    (hs : s.deschedule th cid targetState = some s') : s'.allowed x c = s.allowed x c := by
  obtain ⟨t, hthread, -, -, -, rfl⟩ := deschedule_eq hs
  rw [allowed_setContext, allowed_setThread]
  split
  · next heq => exact heq ▸ ((seen hthread).allowed c).symm
  · rfl

/-- A wakeup and a wait change nothing that the invariant sees. -/
theorem Inv.wakeup {needsJoin : Bool} (h : Inv hole loose s)
    (hs : s.wakeup th needsJoin = some s') : Inv hole loose s' := by
  obtain ⟨t, hthread, hs⟩ := Option.bind_eq_some_iff.mp hs
  obtain ⟨-, heq⟩ := Option.ite_none_right_eq_some.mp hs
  cases heq
  exact h.congr hthread rfl rfl rfl rfl rfl Iff.rfl (.inl rfl)

theorem Inv.waitForContext (h : Inv hole loose s) (hs : s.waitForContext th = some s')
    (hhandoff : s.handoffOf th = none) : Inv hole loose s' := by
  obtain ⟨t, hthread, rfl⟩ := Option.map_eq_some_iff.mp hs
  exact h.congr hthread rfl rfl rfl rfl rfl Iff.rfl (.inr ((seen hthread).handoff ▸ hhandoff))

/-- A thread leaves the `sleepQueue`. -/
theorem Inv.block (h : Inv hole loose s) (hthread : s.threads th = some t) (hloose : th ∈ loose)
    (hstate : t.state = SLEEPING) :
    Inv hole loose (s.setThread th { t with state := BLOCKED }) := by
  have hhandoff := h.handoff_none hthread (by simp [hstate])
  refine h.settle hthread hloose ?_ ?_ ?_ ?_ hhandoff hhandoff ?_ ?_
  case refine_5 => simp [hstate]
  case refine_6 => simp [hstate]
  all_goals rfl

/-- `schedContext` takes out a thread that may use the context, or there is none. -/
theorem schedContext_cases {inTh : Option Nat} (hs : s.schedContext cid = some (s', inTh)) :
    (∃ th, inTh = some th ∧ s.removeRun th = some s' ∧ th ∈ s.runQueue ∧
      s.allowed th cid = true) ∨
    (inTh = none ∧ s = s' ∧ ∀ x ∈ s.runQueue, s.allowed x cid = false) := by
  unfold schedContext at hs
  split at hs
  · next th hfind =>
    obtain ⟨s1, hs1, heq⟩ := Option.map_eq_some_iff.mp hs
    cases heq
    have hmay := List.find?_some hfind
    exact .inl ⟨th, rfl, hs1, List.mem_of_find?_eq_some hfind, hmay⟩
  · next hfind =>
    cases hs
    exact .inr ⟨rfl, rfl, fun x hx => by simpa [allowed] using List.find?_eq_none.mp hfind x hx⟩

/-- `schedThread` takes a context from the `freeList`, or from a thread that is out, or there is
none to take. -/
theorem schedThread_cases {ctx : Option Nat} (hs : s.schedThread th = some (s', ctx)) :
    (∃ cid, ctx = some cid ∧ s.removeFree cid = some s' ∧ s.allowed th cid = true) ∨
    (∃ outTh o s1, ctx = some o.cid ∧ outTh ∈ s.outQueue ∧ s.threads outTh = some o ∧
      s.removeOut outTh = some s1 ∧ s1.deschedule outTh o.cid .BLOCKED = some s' ∧
      s.allowed th o.cid = true) ∨
    (ctx = none ∧ s = s' ∧ (∀ cid ∈ s.freeList, s.allowed th cid = false) ∧
      ∀ outTh ∈ s.outQueue, ∀ cid, s.cidOf outTh = some cid → s.allowed th cid = false) := by
  obtain ⟨t, hthread, hs⟩ := Option.bind_eq_some_iff.mp hs
  obtain ⟨-, hs⟩ := Option.ite_none_right_eq_some.mp hs
  have hallowed := (seen hthread).allowed
  split at hs
  · next hlast =>
    obtain ⟨s1, hs1, heq⟩ := Option.map_eq_some_iff.mp hs
    cases heq
    exact .inl ⟨t.cid, rfl, hs1, (hallowed t.cid).trans hlast.2⟩
  · split at hs
    · next cid hfind =>
      obtain ⟨s1, hs1, heq⟩ := Option.map_eq_some_iff.mp hs
      cases heq
      exact .inl ⟨cid, rfl, hs1, (hallowed cid).trans (List.find?_some hfind)⟩
    · next hfree =>
      split at hs
      · next outTh hfind =>
        obtain ⟨o, ho, hs⟩ := Option.bind_eq_some_iff.mp hs
        obtain ⟨s1, hs1, hs⟩ := Option.bind_eq_some_iff.mp hs
        obtain ⟨s2, hs2, heq⟩ := Option.map_eq_some_iff.mp hs
        cases heq
        have hmay := List.find?_some hfind
        rw [ho, Option.any_some] at hmay
        exact .inr (.inl ⟨outTh, o, s1, rfl, List.mem_of_find?_eq_some hfind, ho, hs1, hs2,
          (hallowed o.cid).trans hmay⟩)
      · next hout =>
        cases hs
        refine .inr (.inr ⟨rfl, rfl, fun cid hcid => ?_, fun outTh hmem cid hcid => ?_⟩)
        · simpa [hallowed] using List.find?_eq_none.mp hfree cid hcid
        · obtain ⟨o, ho, rfl⟩ := Option.map_eq_some_iff.mp hcid
          simpa [hallowed, ho] using List.find?_eq_none.mp hout outTh hmem

/-- `schedThread` makes room for a thread, or all the contexts that the thread may use are busy. -/
theorem Inv.schedThread {ctx : Option Nat} (h : Inv none loose s)
    (hs : s.schedThread th = some (s', ctx)) (hloose : ∀ x ∈ loose, s.stateOf x ≠ some OUT) :
    (∃ cid, ctx = some cid ∧ Inv (some cid) loose s' ∧ s'.allowed th cid = true) ∨
    (ctx = none ∧ s = s' ∧ ∀ cid < s.numCores, s.allowed th cid = true →
      ∃ v, (s.contexts cid).curThread = some v ∧ s.stateOf v = some RUNNING) := by
  obtain ⟨cid, hctx, hs1, hmay⟩ | ⟨outTh, o, s1, hctx, hmem, ho, hs1, hs2, hmay⟩ |
    ⟨hctx, heq, hfree, hout⟩ := schedThread_cases hs
  · refine .inl ⟨cid, hctx, h.removeFree hs1, ?_⟩
    obtain ⟨q, -, rfl⟩ := Option.map_eq_some_iff.mp hs1
    exact hmay
  · have hstate := ((h.out outTh).mp hmem).2
    have h1 := h.removeOut hs1
    have hnotout : outTh ∉ s1.outQueue := fun hmem => ((h1.out outTh).mp hmem).1 List.mem_cons_self
    have hhandoff : s.handoffOf outTh = none := h.handoffOf_none (by simp [hstate])
    have hblocked := stateOf_deschedule hs2 (x := outTh)
    have hmay' := allowed_deschedule hs2 (x := th) (c := o.cid)
    obtain ⟨q, -, rfl⟩ := Option.map_eq_some_iff.mp hs1
    have h2 := h1.deschedule hs2 hhandoff hnotout
    rw [if_pos rfl] at hblocked
    refine .inl ⟨o.cid, hctx, ?_, hmay'.trans hmay⟩
    apply (h2.tighten _ _ _).tighten <;> simp [hblocked]
  · refine .inr ⟨hctx, heq, fun cid hcid hmay => ?_⟩
    obtain hidle | ⟨-, v, hused, hown, hplaced⟩ := h.context cid
    · have hnot := hfree cid ((h.free cid).mpr ⟨hcid, by rw [hidle], by simp⟩)
      exact absurd hmay (by simp [hnot])
    · refine ⟨v, by rw [hused], hplaced.resolve_right fun hv => ?_⟩
      have hnot := hout v ((h.out v).mpr ⟨fun hmem => hloose v hmem hv, hv⟩) cid hown
      exact absurd hmay (by simp [hnot])

/-! ### The end of a phase -/

/-- `release` changes only the place of a thread. -/
theorem release_keeps {α : Type} (f : Option ThreadInfo → α)
    (hf : ∀ t : ThreadInfo, f (some { t with place := .synced }) = f (some t)) (x : Nat) :
    f (s.release.threads x) = f (s.threads x) := by
  cases hx : s.threads x with
  | none => simp [Scheduler.release, hx]
  | some t =>
    simp only [Scheduler.release, hx, Option.map_some]
    split
    · exact hf t
    · rfl

theorem Inv.release (h : Inv hole loose s) : Inv hole loose s.release := by
  have heq : s.release = { s with threads := s.release.threads, gidMap := s.gidMap } := rfl
  apply h.rethread heq
  · exact release_keeps (Option.map (·.state)) fun _ => rfl
  · exact release_keeps (Option.map (·.cid)) fun _ => rfl
  · exact release_keeps (Option.bind · (·.handoffThread)) fun _ => rfl
  · exact fun x c => release_keeps (Option.any (·.allows c)) (fun _ => rfl) x
  · intro g x
    have hgid := release_keeps (s := s)
      (Option.bind · fun t => if t.finishing = .no then some t.gid else none) (fun _ => rfl) x
    rw [h.gid, gidOf, gidOf, hgid]
  · intro x y _ hplace
    cases hx : s.threads x with
    | none => simp [placeOf, hx] at hplace
    | some t =>
      have hsynced : t.place = .synced := by simpa [placeOf, hx] using hplace
      simp [placeOf, Scheduler.release, hx, hsynced]
  · intro x hx
    simp [Scheduler.release, hx]

/-- The threads that the contexts run are back from the barrier, with no handoff to make. -/
def Ready (avail : List Nat) (s : Scheduler) : Prop :=
  ∀ cid ∈ avail, ∀ v, (s.contexts cid).curThread = some v → s.stateOf v = some RUNNING →
    s.placeOf v = some .synced ∧ s.handoffOf v = none

theorem Inv.ready_release (h : Inv none [] s) (hsynced : s.allSynced = true) {avail : List Nat}
    (havail : ∀ cid ∈ avail, cid < s.numCores) : Ready avail s.release := by
  intro cid hcid v hcur hrunning
  have hcur : (s.contexts cid).curThread = some v := hcur
  cases hthread : s.threads v with
  | none => simp [stateOf, Scheduler.release, hthread] at hrunning
  | some t =>
    have hctx := List.all_eq_true.mp hsynced cid (List.mem_range.mpr (havail cid hcid))
    rw [hcur, Option.all_some, hthread, Option.all_some] at hctx
    have hstate : t.state = RUNNING := by
      simp only [stateOf, Scheduler.release, hthread, Option.map_some, Option.some.injEq]
        at hrunning
      split at hrunning <;> exact hrunning
    have hplace : t.place = .inSync := by simpa [hstate] using hctx
    refine ⟨by simp [placeOf, Scheduler.release, hthread, hplace], ?_⟩
    have hnone : s.handoffOf v = none := by
      rw [Option.eq_none_iff_forall_ne_some]
      intro dst hdst
      have hback := (h.handoff v dst hdst).2.1
      simp [placeOf, hthread, hplace] at hback
    simpa [handoffOf, Scheduler.release, hthread, hplace] using hnone

/-- One round of the loop over the `sleepQueue`. -/
theorem Inv.wakeSleeper {s1 : Scheduler} {rest avail : List Nat} (h : Inv none [] s)
    (hready : Ready avail s) (hqueue : s.sleepQueue = th :: rest)
    (hthread : s.threads th = some t)
    (hs : (s.setThread th { t with state := BLOCKED }).wakeup th false = some s1) :
    Inv none [] { s1 with sleepQueue := rest } ∧ Ready avail { s1 with sleepQueue := rest } ∧
      s1.numCores = s.numCores := by
  have hseen := seen hthread
  have hsleep := ((h.sleep th).mp (hqueue ▸ List.mem_cons_self)).2
  rw [hseen.state] at hsleep
  have hstate : t.state = SLEEPING := Option.some.inj hsleep
  have hremove : s.removeSleep th = some { s with sleepQueue := rest } := by
    simp [Scheduler.removeSleep, remove, hqueue]
  have hblocked := (h.removeSleep hremove).block hthread List.mem_cons_self hstate
  obtain ⟨t1, hthread1, hs⟩ := Option.bind_eq_some_iff.mp hs
  obtain ⟨-, heq⟩ := Option.ite_none_right_eq_some.mp hs
  obtain rfl : { t with state := BLOCKED } = t1 := by simpa [setThread] using hthread1
  have hkept : Inv none [th] { s1 with sleepQueue := rest } := by
    cases heq
    refine hblocked.congr hthread1 ?_ ?_ ?_ ?_ ?_ ?_ (.inl rfl)
    all_goals rfl
  have hs1 : s1.stateOf th = some BLOCKED := by
    cases heq
    simp
  have hrest : ∀ v, s1.stateOf v = some RUNNING → s.stateOf v = some RUNNING ∧
      s1.placeOf v = s.placeOf v ∧ s1.handoffOf v = s.handoffOf v := by
    cases heq
    grind
  have hsame : s1.contexts = s.contexts ∧ s1.numCores = s.numCores := by
    cases heq
    exact ⟨rfl, rfl⟩
  refine ⟨hkept.tighten ?_ ?_ ?_, fun cid hcid v hcur hv => ?_, hsame.2⟩
  case refine_4 =>
    obtain ⟨hv', hplace, hhandoff⟩ := hrest v hv
    have hold := hready cid hcid v (by rw [← hsame.1]; exact hcur) hv'
    exact ⟨hplace.trans hold.1, hhandoff.trans hold.2⟩
  all_goals
    intro heq
    cases hs1.symm.trans heq

theorem Inv.wakeSleepers {avail queue : List Nat} (h : Inv none [] s) (hready : Ready avail s)
    (hqueue : s.sleepQueue = queue) (hs : wakeSleepers queue s = some s') :
    Inv none [] s' ∧ Ready avail s' ∧ s'.numCores = s.numCores := by
  induction queue generalizing s with
  | nil =>
    cases hs
    exact ⟨h, hready, rfl⟩
  | cons th rest ih =>
    obtain ⟨t, hthread, hs⟩ := Option.bind_eq_some_iff.mp hs
    split at hs
    · obtain ⟨-, hs⟩ := Option.ite_none_right_eq_some.mp hs
      obtain ⟨s1, hs1, hs⟩ := Option.bind_eq_some_iff.mp hs
      obtain ⟨h1, hready1, hcores1⟩ := h.wakeSleeper hready hqueue hthread hs1
      obtain ⟨hinv, hready, hcores⟩ := ih h1 hready1 rfl hs
      exact ⟨hinv, hready, hcores.trans hcores1⟩
    · cases hs
      exact ⟨h, hready, rfl⟩

theorem removeRun_setThread (hth : th ∈ s.runQueue) :
    (s.setThread x t).removeRun th =
      some ({ s with runQueue := s.runQueue.erase th }.setThread x t) := by
  simp [Scheduler.removeRun, remove, hth, setThread]

/-- The loop of `schedTick` always finds a victim, and loses no thread. -/
theorem Inv.tickLoop {avail queue : List Nat} (h : Inv none [] s) (hready : Ready avail s)
    (havail : ∀ cid ∈ avail, cid < s.numCores) (hdistinct : avail.Nodup) (hnodup : queue.Nodup)
    (hqueue : ∀ x ∈ queue, x ∈ s.runQueue) :
    ∃ s', tickLoop queue avail s = some s' ∧ Inv none [] s' := by
  induction queue generalizing s avail with
  | nil => exact ⟨s, rfl, h⟩
  | cons th rest ih =>
    obtain ⟨hth, hrest⟩ := List.forall_mem_cons.mp hqueue
    obtain ⟨hnotin, hnodup⟩ := List.nodup_cons.mp hnodup
    unfold Scheduler.tickLoop
    by_cases hempty : avail = []
    · exact ⟨s, if_pos hempty, h⟩
    rw [if_neg hempty]
    obtain ⟨-, -, hstate⟩ := (h.run th).mp hth
    obtain ⟨t, hthread, -⟩ := Option.map_eq_some_iff.mp hstate
    rw [hthread, Option.bind_some]
    cases hfind : avail.find? t.allows with
    | none => exact ih h hready havail hdistinct hnodup hrest
    | some cid =>
      have hcid := List.mem_of_find?_eq_some hfind
      have hallow : s.allowed th cid = true :=
        ((seen hthread).allowed cid).trans (List.find?_some hfind)
      obtain ⟨v, hcur, hrunning⟩ := h.busy th hth cid (havail cid hcid) hallow (by simp)
      obtain ⟨victim, hvictim, hvstate⟩ := Option.map_eq_some_iff.mp hrunning
      obtain ⟨hplace, hhandoff⟩ := hready cid hcid v hcur hrunning
      have hseen := seen hvictim
      have hown : victim.cid = cid :=
        Option.some.inj (hseen.cid.symm.trans (h.owner hcur).2.2.1)
      have hremove : s.removeRun th = some { s with runQueue := s.runQueue.erase th } := by
        simp [Scheduler.removeRun, remove, hth]
      have h1 := (h.removeRun hremove).handOver hvictim hvstate
        (Option.some.inj (hseen.place.symm.trans hplace)) (hseen.handoff.symm.trans hhandoff)
        hstate (by simp) (hown ▸ hallow)
      simp only [hcur, Option.bind_some, hvictim, removeRun_setThread hth]
      apply ih h1
      · intro c hc v' hcur' hrunning'
        obtain ⟨hne, hc⟩ := hdistinct.mem_erase_iff.mp hc
        have hne' : v' ≠ v := by
          rintro rfl
          exact hne (Option.some.inj ((h.owner hcur').2.2.1.symm.trans (h.owner hcur).2.2.1))
        rw [placeOf_setThread, handoffOf_setThread, if_neg hne', if_neg hne']
        rw [stateOf_setThread, if_neg hne'] at hrunning'
        exact hready c hc v' hcur' hrunning'
      · exact fun c hc => havail c (List.mem_of_mem_erase hc)
      · exact hdistinct.erase cid
      · exact hnodup
      · intro x hx
        have hne : x ≠ th := fun heq => hnotin (heq ▸ hx)
        exact h.run_nodup.mem_erase_iff.mpr ⟨hne, hrest x hx⟩

/-- The state in which `callback` looks at the `runQueue`. -/
def beforeTick (s : Scheduler) : Option Scheduler :=
  wakeSleepers s.sleepQueue { s.release with curPhase := s.curPhase + 1 }

theorem Inv.beforeTick {s1 : Scheduler} {avail : List Nat} (h : Inv none [] s)
    (hsynced : s.allSynced = true) (havail : avail.Perm (List.range s.numCores))
    (hs : s.beforeTick = some s1) : Inv none [] s1 ∧ ∃ s', s1.schedTick avail = some s' ∧
      Inv none [] s' := by
  have hcores : ∀ cid ∈ avail, cid < s.numCores := fun cid hcid =>
    List.mem_range.mp (havail.mem_iff.mp hcid)
  have hrelease : Inv none [] { s.release with curPhase := s.curPhase + 1 } :=
    { h.release with }
  obtain ⟨h1, hready, hcores1⟩ :=
    hrelease.wakeSleepers (h.ready_release hsynced hcores) rfl hs
  exact ⟨h1, h1.tickLoop hready (fun cid hcid => hcores1 ▸ hcores cid hcid)
    (havail.nodup_iff.mpr List.nodup_range) h1.run_nodup fun x hx => hx⟩

theorem Inv.endPhase {avail : List Nat} (h : Inv none [] s) (hs : s.endPhase avail = some s') :
    Inv none [] s' := by
  obtain ⟨⟨hsynced, havail⟩, hs⟩ := Option.ite_none_right_eq_some.mp hs
  obtain ⟨s1, hs1, hs⟩ := Option.bind_eq_some_iff.mp hs
  obtain ⟨h1, s2, hs2, h2⟩ := h.beforeTick hsynced havail hs1
  split at hs
  · rw [hs2] at hs
    cases hs
    exact h2
  · cases hs
    exact h1

end Scheduler

end Doppelganger.Scheduling
