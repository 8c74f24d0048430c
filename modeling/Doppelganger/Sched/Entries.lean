import Doppelganger.Lib.Run
import Doppelganger.Sched.Ticks

/-! The entry points of the scheduler keep the invariant, in any order, as long as `finish` makes
no thread leave that has a handoff to make. -/

namespace Doppelganger.Scheduling

open List ThreadState

namespace Scheduler

variable {s s' : Scheduler} {th dst x cid : Nat} {gid : UInt32} {t t' : ThreadInfo}
variable {hole : Option Nat} {loose : List Nat}

/-! ### Threads come and go -/

theorem Inv.start {mask : List Bool} (h : Inv none [] s) (hs : s.start gid mask = some s') :
    Inv none [] s' := by
  obtain ⟨⟨hnew, hlength, hmask⟩, heq⟩ := Option.ite_none_right_eq_some.mp hs
  have hcores : 0 < s.numCores := hlength ▸ List.length_pos_of_mem hmask
  have hfresh := h.fresh s.nextThread (Nat.le_refl _)
  have hnone : s.stateOf s.nextThread = none ∧ s.cidOf s.nextThread = none ∧
      s.handoffOf s.nextThread = none ∧ s.gidOf s.nextThread = none := by
    simp [stateOf, cidOf, handoffOf, gidOf, hfresh]
  generalize ht : (⟨gid, .STARTED, 0, none, 0, false, false, 0, mask, false, .elsewhere, .no⟩ :
    ThreadInfo) = t at heq
  obtain ⟨hstate, hcid, hplace, hhandoff, hgid, hallowed⟩ :
      (∀ x, s'.stateOf x = if x = s.nextThread then some STARTED else s.stateOf x) ∧
      (∀ x, s'.cidOf x = if x = s.nextThread then some 0 else s.cidOf x) ∧
      (∀ x, s'.placeOf x = if x = s.nextThread then some .elsewhere else s.placeOf x) ∧
      (∀ x, s'.handoffOf x = if x = s.nextThread then none else s.handoffOf x) ∧
      (∀ x, s'.gidOf x = if x = s.nextThread then some gid else s.gidOf x) ∧
      ∀ x c, s'.allowed x c = if x = s.nextThread then t.allows c else s.allowed x c := by
    cases heq
    subst ht
    exact ⟨fun _ => stateOf_setThread, fun _ => cidOf_setThread, fun _ => placeOf_setThread,
      fun _ => handoffOf_setThread, fun _ => gidOf_setThread, fun _ _ => allowed_setThread⟩
  have hplaced : ∀ x, s'.placedOn x ↔ s.placedOn x := by
    intro x
    unfold placedOn
    grind
  have hhand : ∀ x, s'.handoffOf x = s.handoffOf x := by grind
  have hused : ∀ x, s.placedOn x → x ≠ s.nextThread := by
    rintro x hx rfl
    grind [placedOn]
  constructor
  case free_nodup => cases heq; exact h.free_nodup
  case run_nodup => cases heq; exact h.run_nodup
  case out_nodup => cases heq; exact h.out_nodup
  case sleep_nodup => cases heq; exact h.sleep_nodup
  case free => cases heq; exact h.free
  case vacant => simp
  case context =>
    intro c
    obtain hidle | ⟨hlt, v, hctx, hown, hv⟩ := h.context c
    · exact .inl (by cases heq; exact hidle)
    · refine .inr ⟨by cases heq; exact hlt, v, by cases heq; exact hctx, ?_, (hplaced v).mpr hv⟩
      rw [hcid, if_neg (hused v hv), hown]
  case placed =>
    intro x hx
    have hx := (hplaced x).mp hx
    obtain ⟨c, hown, hctx, hmay⟩ := h.placed x hx
    refine ⟨c, ?_, by cases heq; exact hctx, ?_⟩
    · rw [hcid, if_neg (hused x hx), hown]
    · rw [hallowed, if_neg (hused x hx), hmay]
  case run =>
    intro x
    simp only [hhand, hstate]
    have hold := h.run x
    cases heq
    grind
  case out =>
    intro x
    rw [hstate]
    have hold := h.out x
    cases heq
    grind
  case sleep =>
    intro x
    rw [hstate]
    have hold := h.sleep x
    cases heq
    grind
  case handoff =>
    intro v x hv
    rw [hhand] at hv
    have hold := h.handoff v x hv
    grind
  case unique => simpa only [hhand] using h.unique
  case busy =>
    intro x hx c hc hmay _
    have hx : x ∈ s.runQueue := by cases heq; exact hx
    have hc : c < s.numCores := by cases heq; exact hc
    have hne : x ≠ s.nextThread := by grind [h.run]
    obtain ⟨v, hcur, hv⟩ := h.busy x hx c hc (by rw [← hmay, hallowed, if_neg hne]) (by simp)
    exact ⟨v, by cases heq; exact hcur, by grind⟩
  case gid =>
    intro g x
    rw [hgid]
    have hold := h.gid g x
    have hgid := h.gid gid x
    cases heq
    simp only [Function.update_apply]
    grind
  case fresh =>
    intro x hx
    have hne : x ≠ s.nextThread ∧ s.nextThread ≤ x := by cases heq; simp at hx; omega
    have hold := h.fresh x hne.2
    cases heq
    simpa [hne.1] using hold
  case cid =>
    intro x c hx
    rw [hcid] at hx
    have hold := h.cid x c
    cases heq
    grind

/-- `finish` erases the `gid` of a thread. -/
theorem Inv.erase (h : Inv hole loose s) (hmap : s.gidMap gid = some th)
    (hthread : s.threads th = some t) (hstate : t'.state = t.state) (hcid : t'.cid = t.cid)
    (hmask : t'.mask = t.mask) (hhandoff : t'.handoffThread = t.handoffThread)
    (hplace : t'.place = t.place) (hfinishing : t'.finishing ≠ .no) :
    Inv hole loose
      ({ s with gidMap := Function.update s.gidMap gid none }.setThread th t') := by
  have hseen := seen hthread
  have hallows : ∀ cid, t'.allows cid = t.allows cid := by simp [ThreadInfo.allows, hmask]
  generalize hs1 : { s with gidMap := Function.update s.gidMap gid none } = s1
  obtain ⟨e1, e2, e3, e4, e5, e6⟩ : (∀ x, s1.stateOf x = s.stateOf x) ∧
      (∀ x, s1.cidOf x = s.cidOf x) ∧ (∀ x, s1.handoffOf x = s.handoffOf x) ∧
      (∀ x c, s1.allowed x c = s.allowed x c) ∧ (∀ x, s1.gidOf x = s.gidOf x) ∧
      ∀ x, s1.placeOf x = s.placeOf x := by
    cases hs1
    simp [stateOf, cidOf, handoffOf, allowed, gidOf, placeOf]
  have heq : s1.setThread th t' = { s with
      threads := Function.update s.threads th (some t'),
      gidMap := Function.update s.gidMap gid none } := by
    cases hs1
    rfl
  apply h.rethread heq
  · grind [hseen.state]
  · grind [hseen.cid]
  · grind [hseen.handoff]
  · grind [hseen.allowed]
  · intro g x
    have hold := h.gid g x
    have hgid := h.gid gid th
    rw [gidOf_setThread, Function.update_apply]
    grind
  · grind [hseen.place]
  · intro x hx
    have hne : x ≠ th := by
      rintro rfl
      rw [hx] at hthread
      cases hthread
    simpa [hne] using hx

/-- A thread that is in no queue, and has no context, goes. -/
theorem Inv.drop (h : Inv hole (th :: loose) s) (hthread : s.threads th = some t)
    (hstate : t.state ≠ RUNNING ∧ t.state ≠ OUT) (hfinishing : t.finishing ≠ .no) :
    Inv hole loose { s with threads := Function.update s.threads th none } := by
  have hseen := seen hthread
  have hplaced := placedOn_iff hthread
  have hhandoff := hseen.handoff.trans (h.handoff_none hthread hstate.1)
  generalize hs' : { s with threads := Function.update s.threads th none } = s'
  obtain ⟨e1, e2, e3, e4, e5, e6⟩ :
      (∀ x, s'.stateOf x = if x = th then none else s.stateOf x) ∧
      (∀ x, s'.cidOf x = if x = th then none else s.cidOf x) ∧
      (∀ x, s'.handoffOf x = if x = th then none else s.handoffOf x) ∧
      (∀ x c, s'.allowed x c = if x = th then false else s.allowed x c) ∧
      (∀ x, s'.gidOf x = if x = th then none else s.gidOf x) ∧
      ∀ x, s'.placeOf x = if x = th then none else s.placeOf x := by
    cases hs'
    refine ⟨fun x => ?_, fun x => ?_, fun x => ?_, fun x c => ?_, fun x => ?_, fun x => ?_⟩
    all_goals
      by_cases hx : x = th <;> simp [stateOf, cidOf, handoffOf, allowed, gidOf, placeOf, hx]
  have hother : ∀ x, s.placedOn x → x ≠ th := by
    rintro x hx rfl
    exact (hplaced.mp hx).elim hstate.1 hstate.2
  have hplaced' : ∀ x, s'.placedOn x ↔ s.placedOn x := by
    intro x
    unfold placedOn
    have := hother x
    grind [placedOn]
  have hhand : ∀ x, s'.handoffOf x = s.handoffOf x := by grind
  have htarget : ∀ v, s.handoffOf v ≠ some th := fun v hv => (h.target hv).1 List.mem_cons_self
  have hqueue : th ∉ s.runQueue := fun hmem => ((h.run th).mp hmem).1 List.mem_cons_self
  constructor
  case free_nodup => cases hs'; exact h.free_nodup
  case run_nodup => cases hs'; exact h.run_nodup
  case out_nodup => cases hs'; exact h.out_nodup
  case sleep_nodup => cases hs'; exact h.sleep_nodup
  case free => cases hs'; exact h.free
  case vacant => cases hs'; exact h.vacant
  case context =>
    intro c
    obtain hidle | ⟨hlt, v, hctx, hown, hv⟩ := h.context c
    · exact .inl (by cases hs'; exact hidle)
    · refine .inr ⟨by cases hs'; exact hlt, v, by cases hs'; exact hctx, ?_, (hplaced' v).mpr hv⟩
      rw [e2, if_neg (hother v hv), hown]
  case placed =>
    intro x hx
    have hx := (hplaced' x).mp hx
    obtain ⟨c, hown, hctx, hmay⟩ := h.placed x hx
    refine ⟨c, ?_, by cases hs'; exact hctx, ?_⟩
    · rw [e2, if_neg (hother x hx), hown]
    · rw [e4, if_neg (hother x hx), hmay]
  case run =>
    intro x
    have hold := h.run x
    simp only [hhand, e1]
    cases hs'
    grind
  case out =>
    intro x
    have hold := h.out x
    rw [e1]
    cases hs'
    grind
  case sleep =>
    intro x
    have hold := h.sleep x
    rw [e1]
    cases hs'
    grind
  case handoff =>
    intro v x hv
    rw [hhand] at hv
    have hold := h.handoff v x hv
    have hne : x ≠ th := fun heq => htarget v (heq ▸ hv)
    have hne' := hother v (.inl hold.1)
    simp only [e1, e2, e4, e6, if_neg hne, if_neg hne']
    exact ⟨hold.1, hold.2.1, fun hmem => hold.2.2.1 (List.mem_cons_of_mem th hmem), hold.2.2.2⟩
  case unique => simpa only [hhand] using h.unique
  case busy =>
    intro x hx c hc hmay hhole
    have hx : x ∈ s.runQueue := by cases hs'; exact hx
    have hc : c < s.numCores := by cases hs'; exact hc
    have hne : x ≠ th := fun heq => hqueue (heq ▸ hx)
    rw [e4, if_neg hne] at hmay
    obtain ⟨v, hcur, hv⟩ := h.busy x hx c hc hmay hhole
    exact ⟨v, by cases hs'; exact hcur, by rw [e1, if_neg (hother v (.inl hv)), hv]⟩
  case gid =>
    intro g x
    have hold := h.gid g x
    have hgid := hseen.gid
    rw [e5]
    cases hs'
    grind
  case fresh =>
    intro x hx
    have hold : s.threads x = none := h.fresh x (by cases hs'; exact hx)
    cases hs'
    simp [Function.update_apply, hold]
  case cid =>
    intro x c hx
    have hold := h.cid x c
    rw [e2] at hx
    cases hs'
    grind

/-- No queued thread may use the context of a thread that is out. -/
theorem Inv.idle_of_out (h : Inv none [] s) (hthread : s.threads th = some t)
    (hout : t.state = OUT) : ∀ x ∈ s.runQueue, s.allowed x t.cid = false := by
  intro x hx
  have hseen := seen hthread
  obtain ⟨c, hown, hused, -⟩ := h.placed th ((placedOn_iff hthread).mpr (.inr hout))
  obtain rfl : t.cid = c := Option.some.inj (hseen.cid.symm.trans hown)
  by_contra hmay
  obtain ⟨v, hcur, hrunning⟩ :=
    h.busy x hx t.cid (h.cid th t.cid hown) (by simpa using hmay) (by simp)
  rw [hused] at hcur
  cases hcur
  rw [hseen.state, hout] at hrunning
  cases hrunning

theorem Inv.finishRest (h : Inv none [] s) (hthread : s.threads th = some t)
    (hfinishing : t.finishing ≠ .no) (hs : s.finishRest th = some s') : Inv none [] s' := by
  rw [Scheduler.finishRest, hthread, Option.bind_some] at hs
  obtain ⟨hstate, hs⟩ := Option.ite_none_right_eq_some.mp hs
  obtain ⟨s1, hs1, rfl⟩ := Option.map_eq_some_iff.mp hs
  have hseen := seen hthread
  split at hs1
  · next hqueued =>
    have h1 := h.removeRun hs1
    obtain ⟨q, -, rfl⟩ := Option.map_eq_some_iff.mp hs1
    exact h1.drop hthread (by simp [hqueued]) hfinishing
  · next hqueued =>
    split at hs1
    · obtain ⟨s2, hs2, hs1⟩ := Option.bind_eq_some_iff.mp hs1
      obtain ⟨s3, hs3, hs1⟩ := Option.bind_eq_some_iff.mp hs1
      have hmem : th ∈ s.outQueue := by
        obtain ⟨q, hq, -⟩ := Option.map_eq_some_iff.mp hs2
        exact (remove_eq_some.mp hq).1
      have hout : t.state = OUT := Option.some.inj (hseen.state.symm.trans ((h.out th).mp hmem).2)
      have hhandoff := hseen.handoff.trans (h.handoff_none hthread (by simp [hout]))
      have h2 := h.removeOut hs2
      have hnotout : th ∉ s2.outQueue := fun hmem =>
        ((h2.out th).mp hmem).1 List.mem_cons_self
      have hidle := h.idle_of_out hthread hout
      obtain ⟨q, -, rfl⟩ := Option.map_eq_some_iff.mp hs2
      have h3 : Inv (some t.cid) [th] s3 :=
        (h2.deschedule hs3 hhandoff hnotout).loose_congr (by simp)
      have hmay := fun x => allowed_deschedule hs3 (x := x) (c := t.cid)
      obtain ⟨t3, hthread3, -, -, -, rfl⟩ := deschedule_eq hs3
      obtain rfl : t = t3 := Option.some.inj (hthread.symm.trans hthread3)
      have h4 := h3.pushFree hs1 fun x hx => (hmay x).trans (hidle x hx)
      obtain ⟨-, heq⟩ := Option.ite_none_left_eq_some.mp hs1
      cases heq
      have hblocked : (s.setThread th { t with state := BLOCKED }).threads th =
          some { t with state := BLOCKED } := by simp [setThread]
      exact h4.drop hblocked (by simp) hfinishing
    · next howned =>
      cases hs1
      have hout : t.state ≠ OUT := by
        intro hout
        have hmem := (h.out th).mpr ⟨by simp, hout ▸ hseen.state⟩
        exact howned (by simp [owned, hmem])
      have h1 : Inv none [th] s := by
        apply h.loosen <;> rw [hseen.state] <;> grind
      exact h1.drop hthread (by grind) hfinishing

theorem Inv.finish (h : Inv none [] s) (hs : s.finish gid = some s') : Inv none [] s' := by
  obtain ⟨th, hmap, hs⟩ := Option.bind_eq_some_iff.mp hs
  obtain ⟨t, hthread, hs⟩ := Option.bind_eq_some_iff.mp hs
  split at hs
  · cases hs
  · split at hs
    · cases hs
      exact h.erase hmap hthread rfl rfl rfl rfl rfl (by simp)
    · refine Inv.finishRest ?_ (Function.update_self ..) ?_ hs
      · exact h.erase hmap hthread rfl rfl rfl rfl rfl (by simp)
      · simp

/-! ### The entry points -/

/-- A thread with no handoff to make leaves. -/
theorem Inv.leave (h : Inv none [] s) (hs : s.leave cid = some s')
    (hhandoff : ∀ th, (s.contexts cid).curThread = some th → s.handoffOf th = none) :
    Inv none [] s' := by
  obtain ⟨th, hcur, hs⟩ := Option.bind_eq_some_iff.mp hs
  obtain ⟨t, hthread, hs⟩ := Option.bind_eq_some_iff.mp hs
  have hhandoff := hhandoff th hcur
  have hseen := seen hthread
  obtain ⟨hrunning, hs⟩ := Option.ite_none_left_eq_some.mp hs
  rw [not_not] at hrunning
  have hnotout : th ∉ s.outQueue := by
    intro hmem
    have hout := ((h.out th).mp hmem).2
    rw [hseen.state, hrunning] at hout
    cases hout
  split at hs
  · obtain ⟨s1, hs1, hs⟩ := Option.bind_eq_some_iff.mp hs
    obtain ⟨s2, hs2, hs⟩ := Option.bind_eq_some_iff.mp hs
    obtain ⟨⟨s3, inTh⟩, hs3, hs⟩ := Option.bind_eq_some_iff.mp hs
    have h0 : Inv none [] (s.setThread th { t with markedForSleep := false }) := by
      refine h.congr hthread ?_ ?_ ?_ ?_ ?_ ?_ (.inl rfl)
      all_goals rfl
    have h1 := h0.deschedule hs1 (by simpa [hseen.handoff] using hhandoff) hnotout
    have hsleeping := stateOf_deschedule hs1 (x := th)
    rw [if_pos rfl] at hsleeping
    have h2 := h1.insertSleep hs2 hsleeping (by simp)
    obtain ⟨inTh, rfl, hs3, hmem, hmay⟩ | ⟨rfl, rfl, hnone⟩ := schedContext_cases hs3
    · dsimp only at hs
      obtain ⟨s4, hs4, hwake⟩ := Option.bind_eq_some_iff.mp hs
      have h3 := h2.removeRun hs3
      obtain ⟨q, -, rfl⟩ := Option.map_eq_some_iff.mp hs3
      exact (h3.schedule hmay hs4).wakeup hwake
    · dsimp only at hs
      exact h2.pushFree hs hnone
  · obtain ⟨⟨s1, inTh⟩, hs1, hs⟩ := Option.bind_eq_some_iff.mp hs
    obtain ⟨inTh, rfl, hs1, hmem, hmay⟩ | ⟨rfl, rfl, hnone⟩ := schedContext_cases hs1
    · dsimp only at hs
      obtain ⟨s2, hs2, hs⟩ := Option.bind_eq_some_iff.mp hs
      obtain ⟨s3, hs3, hwake⟩ := Option.bind_eq_some_iff.mp hs
      have h1 := h.removeRun hs1
      have hmay2 := (allowed_deschedule hs2 (x := inTh) (c := cid))
      have hblocked := stateOf_deschedule hs2 (x := th)
      obtain ⟨q, -, rfl⟩ := Option.map_eq_some_iff.mp hs1
      have h2 := h1.deschedule hs2 hhandoff hnotout
      rw [if_pos rfl] at hblocked
      have h3 := h2.tighten (by simp [hblocked]) (by simp [hblocked]) (by simp [hblocked])
      exact (h3.schedule (hmay2.trans hmay) hs3).wakeup hwake
    · dsimp only at hs
      have hown : t.cid = cid := Option.some.inj (hseen.cid.symm.trans (h.owner hcur).2.2.1)
      have h1 : Inv none [th] s := by
        apply h.loosen <;> simp [hseen.state, hrunning]
      have h2 : Inv none [th] (s.setThread th { t with state := OUT }) := by
        refine h1.settle hthread List.mem_cons_self ?_ ?_ ?_ ?_ (hseen.handoff.symm.trans hhandoff)
          (hseen.handoff.symm.trans hhandoff) ?_ fun _ => .inr (hown ▸ hnone)
        case refine_5 => simp [hrunning]
        all_goals rfl
      exact h2.pushOut hs (by simp) (by simp)

theorem Inv.finishLeave (h : Inv none [] s) (hok : Ok (.finishLeave th) s)
    (hs : s.finishLeave th = some s') : Inv none [] s' := by
  obtain ⟨t, hthread, hs⟩ := Option.bind_eq_some_iff.mp hs
  obtain ⟨⟨hleaving, hcur⟩, hs⟩ := Option.ite_none_right_eq_some.mp hs
  have h1 : Inv none [] (s.setThread th { t with finishing := .left }) := by
    refine h.congr hthread ?_ ?_ ?_ ?_ ?_ ?_ (.inl rfl)
    case refine_6 => simp [hleaving]
    all_goals rfl
  apply h1.leave hs
  intro v hv
  obtain rfl : th = v := Option.some.inj (hcur.symm.trans hv)
  simpa using hok t hthread

theorem Inv.finishEnd (h : Inv none [] s) (hs : s.finishEnd th = some s') : Inv none [] s' := by
  obtain ⟨t, hthread, hs⟩ := Option.bind_eq_some_iff.mp hs
  obtain ⟨hleft, hs⟩ := Option.ite_none_right_eq_some.mp hs
  exact h.finishRest hthread (by simp [hleft]) hs

theorem removeOut_setThread :
    (s.setThread th t).removeOut x = (s.removeOut x).map (setThread · th t) := by
  unfold Scheduler.removeOut
  rw [outQueue_setThread, Option.map_map]
  rfl

/-- A thread that joins is no longer a sleeper. -/
theorem Inv.awake (h : Inv none [] s) (hthread : s.threads th = some t)
    (hs : (if t.state = .SLEEPING then
        (s.removeSleep th).map (setThread · th { t with state := .BLOCKED })
      else if t.state = .BLOCKED ∨ t.state = .STARTED then some s
      else none) = some s') :
    ∃ state, s'.threads th = some { t with state := state } ∧
      (state = BLOCKED ∨ state = STARTED) ∧ Inv none [th] s' := by
  split at hs
  · next hsleeping =>
    obtain ⟨s1, hs1, rfl⟩ := Option.map_eq_some_iff.mp hs
    have h1 := h.removeSleep hs1
    obtain ⟨q, -, rfl⟩ := Option.map_eq_some_iff.mp hs1
    exact ⟨BLOCKED, Function.update_self .., .inl rfl,
      h1.block hthread List.mem_cons_self hsleeping⟩
  · obtain ⟨hstate, heq⟩ := Option.ite_none_right_eq_some.mp hs
    cases heq
    refine ⟨t.state, hthread, hstate, ?_⟩
    apply h.loosen <;> rw [(seen hthread).state] <;> grind

theorem Inv.join (h : Inv none [] s) (hs : s.join gid = some s') : Inv none [] s' := by
  obtain ⟨th, -, hs⟩ := Option.bind_eq_some_iff.mp hs
  obtain ⟨t, hthread, hs⟩ := Option.bind_eq_some_iff.mp hs
  obtain ⟨hplace, hs⟩ := Option.ite_none_left_eq_some.mp hs
  rw [not_not] at hplace
  have hseen := seen hthread
  have hhandoff := h.handoff_unsynced hthread (by simp [hplace])
  split at hs
  · obtain ⟨-, heq⟩ := Option.ite_none_right_eq_some.mp hs
    cases heq
    refine h.congr hthread ?_ ?_ ?_ ?_ ?_ ?_ (.inl rfl)
    all_goals rfl
  obtain ⟨-, hs⟩ := Option.ite_none_left_eq_some.mp hs
  split at hs
  · next hout =>
    rw [removeOut_setThread] at hs
    obtain ⟨s1, hs1, rfl⟩ := Option.map_eq_some_iff.mp hs
    have h1 := h.removeOut hs1
    obtain ⟨q, -, rfl⟩ := Option.map_eq_some_iff.mp hs1
    have h2 : Inv none [th]
        (setThread { s with outQueue := q } th { t with state := RUNNING }) := by
      refine h1.settle hthread List.mem_cons_self ?_ ?_ ?_ ?_ hhandoff hhandoff ?_ ?_
      case refine_5 => simp [hout]
      case refine_6 => simp
      all_goals rfl
    apply h2.tighten <;> simp
  · obtain ⟨s1, hs1, hs⟩ := Option.bind_eq_some_iff.mp hs
    obtain ⟨⟨s2, ctx⟩, hs2, hs⟩ := Option.bind_eq_some_iff.mp hs
    obtain ⟨state, hthread1, hstate1, h1⟩ := h.awake hthread hs1
    generalize ht1 : { t with state := state } = t1 at hthread1
    have hplace1 : t1.handoffThread = none := by rw [← ht1]; exact hhandoff
    have hstate1 : t1.state = BLOCKED ∨ t1.state = STARTED := by rw [← ht1]; exact hstate1
    have hseen1 := seen hthread1
    obtain ⟨cid, rfl, h2, hmay⟩ | ⟨rfl, rfl, hbusy⟩ := h1.schedThread hs2
      fun x hx => by rw [List.mem_singleton.mp hx, hseen1.state]; grind
    · exact h2.schedule hmay hs
    · dsimp only at hs
      rw [hthread1, Option.bind_some] at hs
      obtain ⟨s3, hs3, hwait⟩ := Option.bind_eq_some_iff.mp hs
      have h2 : Inv none [th] (s1.setThread th { t1 with state := QUEUED }) := by
        refine h1.settle hthread1 List.mem_cons_self ?_ ?_ ?_ ?_ hplace1 hplace1 ?_ ?_
        case refine_5 => grind
        case refine_6 => grind
        all_goals rfl
      have h3 := h2.pushRun hs3 (by simp) (by simp) fun cid hcid hmay => by
        rw [allowed_setThread, if_pos rfl] at hmay
        obtain ⟨v, hcur, hrunning⟩ := hbusy cid hcid ((hseen1.allowed cid).trans hmay)
        have hne : v ≠ th := by
          rintro rfl
          grind [hseen1.state]
        exact ⟨v, hcur, by simpa [hne] using hrunning⟩
      obtain ⟨-, heq⟩ := Option.ite_none_left_eq_some.mp hs3
      cases heq
      exact h3.waitForContext hwait (handoffOf_setThread.trans (by simpa using hplace1))

theorem Inv.leaveSelf (h : Inv none [] s) (hs : s.leaveSelf cid = some s') : Inv none [] s' := by
  obtain ⟨th, hcur, hs⟩ := Option.bind_eq_some_iff.mp hs
  obtain ⟨t, hthread, hs⟩ := Option.bind_eq_some_iff.mp hs
  obtain ⟨⟨hplace, -⟩, hs⟩ := Option.ite_none_right_eq_some.mp hs
  apply h.leave hs
  intro v hv
  obtain rfl : th = v := Option.some.inj (hcur.symm.trans hv)
  exact (seen hthread).handoff.trans (h.handoff_unsynced hthread (by simp [hplace]))

theorem Inv.sync (h : Inv none [] s) (hs : s.sync cid = some s') : Inv none [] s' := by
  obtain ⟨th, -, hs⟩ := Option.bind_eq_some_iff.mp hs
  obtain ⟨t, hthread, hs⟩ := Option.bind_eq_some_iff.mp hs
  obtain ⟨⟨-, hplace, -⟩, heq⟩ := Option.ite_none_right_eq_some.mp hs
  cases heq
  refine h.congr hthread ?_ ?_ ?_ ?_ ?_ ?_
    (.inr (h.handoff_unsynced hthread (by simp [hplace])))
  all_goals rfl

/-- A thread hands its context over, and is about to queue up. -/
theorem Inv.handedOver {s1 s2 : Scheduler} (h : Inv none [] s) (hthread : s.threads th = some t)
    (hdst : t.handoffThread = some dst)
    (hs1 : (s.setThread th { t with handoffThread := none, place := .elsewhere }).deschedule th
      t.cid .QUEUED = some s1)
    (hs2 : s1.schedule dst t.cid = some s2) (hs' : s2.wakeup dst false = some s') :
    Inv none [th] s' ∧ s'.stateOf th = some QUEUED := by
  have hseen := seen hthread
  obtain ⟨hrunning, -, -, hqueued, c, hcid, hmay⟩ := h.handoff th dst (hseen.handoff.trans hdst)
  obtain rfl : t.cid = c := Option.some.inj (hseen.cid.symm.trans hcid)
  have hne : dst ≠ th := by
    rintro rfl
    cases hrunning.symm.trans hqueued
  have hnotout : th ∉ s.outQueue := by
    intro hmem
    cases hrunning.symm.trans ((h.out th).mp hmem).2
  have h1 := (h.takeOver hthread hdst).deschedule hs1 (by simp) hnotout
  have hmay1 : s1.allowed dst t.cid = true := by
    rw [allowed_deschedule hs1, allowed_setThread, if_neg hne, hmay]
  have h1 : Inv (some t.cid) [dst, th] s1 := h1.loose_congr fun x => by simp [or_comm]
  refine ⟨(h1.schedule hmay1 hs2).wakeup hs', ?_⟩
  rw [stateOf_wakeup hs', stateOf_schedule hs2, if_neg hne.symm, stateOf_deschedule hs1, if_pos rfl]

/-- A handoff: the thread queues up, and the other runs in its context. -/
theorem Inv.syncEnd (h : Inv none [] s) (hs : s.syncEnd th = some s') : Inv none [] s' := by
  obtain ⟨t, hthread, hs⟩ := Option.bind_eq_some_iff.mp hs
  have hseen := seen hthread
  obtain ⟨-, hs⟩ := Option.ite_none_left_eq_some.mp hs
  split at hs
  · next hnone =>
    cases hs
    refine h.congr hthread ?_ ?_ ?_ ?_ ?_ ?_ (.inr hnone)
    all_goals rfl
  · next dst hdst =>
    obtain ⟨s1, hs1, hs⟩ := Option.bind_eq_some_iff.mp hs
    obtain ⟨s2, hs2, hs⟩ := Option.bind_eq_some_iff.mp hs
    obtain ⟨s3, hs3, hs⟩ := Option.bind_eq_some_iff.mp hs
    obtain ⟨⟨s4, ctx⟩, hs4, hs⟩ := Option.bind_eq_some_iff.mp hs
    obtain ⟨h3, hstate⟩ := h.handedOver hthread hdst hs1 hs2 hs3
    obtain ⟨cid, rfl, h4, hmay4⟩ | ⟨rfl, rfl, hbusy⟩ := h3.schedThread hs4
      fun x hx => by simp [List.mem_singleton.mp hx, hstate]
    · exact h4.schedule hmay4 hs
    · obtain ⟨s5, hs5, hwait⟩ := Option.bind_eq_some_iff.mp hs
      have h5 := h3.pushRun hs5 hstate (by simp) hbusy
      apply h5.waitForContext hwait
      apply h5.handoffOf_none
      obtain ⟨-, heq⟩ := Option.ite_none_left_eq_some.mp hs5
      cases heq
      intro heq
      cases hstate.symm.trans heq

theorem Inv.waitEnd (h : Inv none [] s) (hs : s.waitEnd th = some s') : Inv none [] s' := by
  obtain ⟨t, hthread, hs⟩ := Option.bind_eq_some_iff.mp hs
  obtain ⟨⟨hplace, -⟩, heq⟩ := Option.ite_none_right_eq_some.mp hs
  cases heq
  refine h.congr hthread ?_ ?_ ?_ ?_ ?_ ?_
    (.inr (h.handoff_unsynced hthread (by simp [hplace])))
  all_goals rfl

theorem Inv.syscallLeave (h : Inv none [] s) (hs : s.syscallLeave cid = some s') :
    Inv none [] s' := by
  obtain ⟨th, -, hs⟩ := Option.bind_eq_some_iff.mp hs
  obtain ⟨t, hthread, hs⟩ := Option.bind_eq_some_iff.mp hs
  obtain ⟨-, heq⟩ := Option.ite_none_right_eq_some.mp hs
  cases heq
  refine h.congr hthread ?_ ?_ ?_ ?_ ?_ ?_ (.inl rfl)
  all_goals rfl

theorem Inv.finishFakeLeave (h : Inv none [] s) (hs : s.finishFakeLeave th = some s') :
    Inv none [] s' := by
  obtain ⟨t, hthread, hs⟩ := Option.bind_eq_some_iff.mp hs
  obtain ⟨-, heq⟩ := Option.ite_none_right_eq_some.mp hs
  cases heq
  refine h.congr hthread ?_ ?_ ?_ ?_ ?_ ?_ (.inl rfl)
  all_goals rfl

theorem Inv.markForSleep {wakeupPhase : UInt64} (h : Inv none [] s)
    (hs : s.markForSleep gid wakeupPhase = some s') : Inv none [] s' := by
  obtain ⟨th, -, hs⟩ := Option.bind_eq_some_iff.mp hs
  obtain ⟨t, hthread, hs⟩ := Option.bind_eq_some_iff.mp hs
  obtain ⟨-, heq⟩ := Option.ite_none_right_eq_some.mp hs
  cases heq
  refine h.congr hthread ?_ ?_ ?_ ?_ ?_ ?_ (.inl rfl)
  all_goals rfl

theorem Inv.notifySleepEnd (h : Inv none [] s) (hs : s.notifySleepEnd gid = some s') :
    Inv none [] s' := by
  obtain ⟨th, -, hs⟩ := Option.bind_eq_some_iff.mp hs
  obtain ⟨t, hthread, hs⟩ := Option.bind_eq_some_iff.mp hs
  obtain ⟨-, hs⟩ := Option.ite_none_left_eq_some.mp hs
  split at hs
  · cases hs
    exact h
  · obtain ⟨hsleeping, hs⟩ := Option.ite_none_right_eq_some.mp hs
    obtain ⟨s1, hs1, rfl⟩ := Option.map_eq_some_iff.mp hs
    have h1 := h.removeSleep hs1
    obtain ⟨q, -, rfl⟩ := Option.map_eq_some_iff.mp hs1
    apply (h1.block hthread List.mem_cons_self hsleeping).tighten <;> simp

theorem inv_init (numCores : Nat) (schedQuantum : UInt64) :
    Inv none [] (init numCores schedQuantum) := by
  constructor
  case free_nodup => exact List.nodup_range
  case free => simp [init]
  case context => exact fun cid => .inl rfl
  all_goals simp [init, stateOf, cidOf, handoffOf, gidOf, placedOn]

end Scheduler

/-- Each step keeps the invariant, unless it makes a thread leave that has a handoff to make. -/
theorem inv_step (op : Op) (s s' : Scheduler) (h : s.Inv none []) (hok : Ok op s)
    (hs : step op s = some s') : s'.Inv none [] := by
  cases op with
  | start gid mask => exact h.start hs
  | finish gid => exact h.finish hs
  | finishLeave th => exact h.finishLeave hok hs
  | finishEnd th => exact h.finishEnd hs
  | join gid => exact h.join hs
  | leave cid => exact h.leaveSelf hs
  | sync cid => exact h.sync hs
  | syncEnd th => exact h.syncEnd hs
  | waitEnd th => exact h.waitEnd hs
  | syscallLeave cid => exact h.syscallLeave hs
  | finishFakeLeave th => exact h.finishFakeLeave hs
  | markForSleep gid wakeupPhase => exact h.markForSleep hs
  | notifySleepEnd gid => exact h.notifySleepEnd hs
  | endPhase avail => exact h.endPhase hs

/-- The invariant holds after every run without such a step. -/
theorem inv_run {numCores : Nat} {schedQuantum : UInt64} {ops : List Op} {s : Scheduler}
    (hok : Lib.Along step Ok ops (.init numCores schedQuantum))
    (hrun : Lib.run step ops (.init numCores schedQuantum) = some s) : s.Inv none [] :=
  Lib.run_preserves inv_step (Scheduler.inv_init numCores schedQuantum) hok hrun

end Doppelganger.Scheduling
