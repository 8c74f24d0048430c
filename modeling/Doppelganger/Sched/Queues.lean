import Doppelganger.Sched.Contexts

/-! The queues of the scheduler, and the threads that are in none of them. -/

namespace Doppelganger.Scheduling

open List ThreadState

namespace Scheduler

variable {s s' : Scheduler} {th dst x cid : Nat} {t t' : ThreadInfo} {hole : Option Nat}
variable {loose : List Nat}

theorem Inv.loose_congr {loose' : List Nat} (h : Inv hole loose s)
    (hloose : ∀ x, x ∈ loose ↔ x ∈ loose') : Inv hole loose' s :=
  { h with
    run := by simpa only [hloose] using h.run
    out := by simpa only [hloose] using h.out
    sleep := by simpa only [hloose] using h.sleep
    handoff := by simpa only [hloose] using h.handoff }

/-- A thread whose state has no queue need not be loose. -/
theorem Inv.tighten (h : Inv hole (th :: loose) s) (hqueued : s.stateOf th ≠ some QUEUED)
    (hout : s.stateOf th ≠ some OUT) (hsleep : s.stateOf th ≠ some SLEEPING) :
    Inv hole loose s :=
  { h with
    run := by grind [h.run]
    out := by grind [h.out]
    sleep := by grind [h.sleep]
    handoff := by grind [h.handoff] }

theorem Inv.loosen (h : Inv hole loose s) (hqueued : s.stateOf th ≠ some QUEUED)
    (hout : s.stateOf th ≠ some OUT) (hsleep : s.stateOf th ≠ some SLEEPING) :
    Inv hole (th :: loose) s :=
  { h with
    run := by grind [h.run]
    out := by grind [h.out]
    sleep := by grind [h.sleep]
    handoff := by grind [h.handoff] }

theorem remove_eq_some {list list' : List Nat} :
    remove x list = some list' ↔ x ∈ list ∧ list.erase x = list' := by
  unfold remove
  split <;> simp [*]

theorem Inv.target (h : Inv hole loose s) {v : Nat} (hv : s.handoffOf v = some th) :
    th ∉ loose ∧ s.stateOf th = some QUEUED :=
  ⟨(h.handoff v th hv).2.2.1, (h.handoff v th hv).2.2.2.1⟩

/-- The queues and the loose threads change together. -/
theorem Inv.requeue (h : Inv hole loose s) {run out sleep loose' : List Nat}
    (hrun_nodup : run.Nodup) (hout_nodup : out.Nodup) (hsleep_nodup : sleep.Nodup)
    (hrun : ∀ x, x ∈ run ↔ x ∉ loose' ∧ (∀ v, s.handoffOf v ≠ some x) ∧ s.stateOf x = some QUEUED)
    (hout : ∀ x, x ∈ out ↔ x ∉ loose' ∧ s.stateOf x = some OUT)
    (hsleep : ∀ x, x ∈ sleep ↔ x ∉ loose' ∧ s.stateOf x = some SLEEPING)
    (hhandoff : ∀ v x, s.handoffOf v = some x → x ∉ loose')
    (hbusy : ∀ x ∈ run, x ∉ s.runQueue → ∀ cid < s.numCores, s.allowed x cid = true →
      ∃ v, (s.contexts cid).curThread = some v ∧ s.stateOf v = some RUNNING) :
    Inv hole loose' { s with runQueue := run, outQueue := out, sleepQueue := sleep } :=
  { h with
    run_nodup := hrun_nodup
    out_nodup := hout_nodup
    sleep_nodup := hsleep_nodup
    run := hrun
    out := hout
    sleep := hsleep
    handoff := fun v x hv =>
      have ⟨hrunning, hplace, _, hqueued⟩ := h.handoff v x hv
      ⟨hrunning, hplace, hhandoff v x hv, hqueued⟩
    busy := fun x hx c hc hallowed hhole => by
      by_cases hmem : x ∈ s.runQueue
      · exact h.busy x hmem c hc hallowed hhole
      · exact hbusy x hx hmem c hc hallowed }

theorem Inv.removeRun (h : Inv hole loose s) (hs : s.removeRun th = some s') :
    Inv hole (th :: loose) s' := by
  obtain ⟨q, hq, rfl⟩ := Option.map_eq_some_iff.mp hs
  obtain ⟨hmem, rfl⟩ := remove_eq_some.mp hq
  have hnodup := h.run_nodup
  apply h.requeue (hnodup.erase th) h.out_nodup h.sleep_nodup
  · intro x
    rw [hnodup.mem_erase_iff]
    grind [h.run]
  · grind [h.out, h.run]
  · grind [h.sleep, h.run]
  · intro v x hv
    have htarget := h.target hv
    grind [h.run]
  · exact fun x hx hnot => absurd (List.mem_of_mem_erase hx) hnot

theorem Inv.removeOut (h : Inv hole loose s) (hs : s.removeOut th = some s') :
    Inv hole (th :: loose) s' := by
  obtain ⟨q, hq, rfl⟩ := Option.map_eq_some_iff.mp hs
  obtain ⟨hmem, rfl⟩ := remove_eq_some.mp hq
  have hnodup := h.out_nodup
  apply h.requeue h.run_nodup (hnodup.erase th) h.sleep_nodup
  · grind [h.run, h.out]
  · intro x
    rw [hnodup.mem_erase_iff]
    grind [h.out]
  · grind [h.sleep, h.out]
  · intro v x hv
    have htarget := h.target hv
    grind [h.out]
  · exact fun x hx hnot => absurd hx hnot

theorem Inv.removeSleep (h : Inv hole loose s) (hs : s.removeSleep th = some s') :
    Inv hole (th :: loose) s' := by
  obtain ⟨q, hq, rfl⟩ := Option.map_eq_some_iff.mp hs
  obtain ⟨hmem, rfl⟩ := remove_eq_some.mp hq
  have hnodup := h.sleep_nodup
  apply h.requeue h.run_nodup h.out_nodup (hnodup.erase th)
  · grind [h.run, h.sleep]
  · grind [h.out, h.sleep]
  · intro x
    rw [hnodup.mem_erase_iff]
    grind [h.sleep]
  · intro v x hv
    have htarget := h.target hv
    grind [h.sleep]
  · exact fun x hx hnot => absurd hx hnot

theorem Inv.pushRun (h : Inv hole (th :: loose) s) (hs : s.pushRun th = some s')
    (hstate : s.stateOf th = some QUEUED) (hth : th ∉ loose)
    (hbusy : ∀ cid < s.numCores, s.allowed th cid = true →
      ∃ v, (s.contexts cid).curThread = some v ∧ s.stateOf v = some RUNNING) :
    Inv hole loose s' := by
  obtain ⟨howned, heq⟩ := Option.ite_none_left_eq_some.mp hs
  cases heq
  have hnew : th ∉ s.runQueue := fun hmem => howned (by simp [owned, hmem])
  have hnothand : ∀ v, s.handoffOf v ≠ some th := fun v hv =>
    (h.handoff v th hv).2.2.1 List.mem_cons_self
  apply h.requeue ?_ h.out_nodup h.sleep_nodup
  · intro x
    rw [List.mem_append, List.mem_singleton, h.run]
    grind
  · grind [h.out]
  · grind [h.sleep]
  · intro v x hv
    have htarget := h.target hv
    grind
  · grind
  · grind [h.run_nodup]

theorem Inv.pushOut (h : Inv hole (th :: loose) s) (hs : s.pushOut th = some s')
    (hstate : s.stateOf th = some OUT) (hth : th ∉ loose) : Inv hole loose s' := by
  obtain ⟨howned, heq⟩ := Option.ite_none_left_eq_some.mp hs
  cases heq
  have hnew : th ∉ s.outQueue := fun hmem => howned (by simp [owned, hmem])
  apply h.requeue h.run_nodup ?_ h.sleep_nodup
  · grind [h.run]
  · intro x
    rw [List.mem_append, List.mem_singleton, h.out]
    grind
  · grind [h.sleep]
  · intro v x hv
    have htarget := h.target hv
    grind
  · exact fun x hx hnot => absurd hx hnot
  · grind [h.out_nodup]

theorem insertSleep_perm (hs : s.insertSleep th = some s') :
    ∃ q, s' = { s with sleepQueue := q } ∧ q.Perm (th :: s.sleepQueue) ∧ th ∉ s.sleepQueue := by
  obtain ⟨howned, heq⟩ := Option.ite_none_left_eq_some.mp hs
  cases heq
  refine ⟨_, rfl, ?_, fun hmem => howned (by simp [owned, hmem])⟩
  obtain ⟨rest, hrest⟩ :=
    List.takeWhile_prefix (fun cur => decide (s.wakeupOf cur ≤ s.wakeupOf th)) (l := s.sleepQueue)
  have hdrop := congrArg (List.drop (s.sleepQueue.takeWhile
    fun cur => decide (s.wakeupOf cur ≤ s.wakeupOf th)).length) hrest
  rw [List.drop_left] at hdrop
  rw [← hdrop]
  apply List.perm_middle.trans
  rw [hrest]

theorem Inv.insertSleep (h : Inv hole (th :: loose) s) (hs : s.insertSleep th = some s')
    (hstate : s.stateOf th = some SLEEPING) (hth : th ∉ loose) : Inv hole loose s' := by
  obtain ⟨q, rfl, hperm, hnew⟩ := insertSleep_perm hs
  apply h.requeue h.run_nodup h.out_nodup
    (hperm.nodup_iff.mpr (List.nodup_cons.mpr ⟨hnew, h.sleep_nodup⟩))
  · grind [h.run]
  · grind [h.out]
  · intro x
    rw [hperm.mem_iff, List.mem_cons, h.sleep]
    grind
  · intro v x hv
    have htarget := h.target hv
    grind
  · exact fun x hx hnot => absurd hx hnot

theorem Inv.removeFree (h : Inv none loose s) (hs : s.removeFree cid = some s') :
    Inv (some cid) loose s' := by
  obtain ⟨q, hq, rfl⟩ := Option.map_eq_some_iff.mp hs
  obtain ⟨hmem, rfl⟩ := remove_eq_some.mp hq
  have hnodup := h.free_nodup
  have hfree := (h.free cid).mp hmem
  exact { h with
    free_nodup := hnodup.erase cid
    free := fun x => by
      rw [hnodup.mem_erase_iff, h.free]
      grind
    vacant := fun x hx => by
      cases hx
      refine ⟨hfree.1, (h.context cid).resolve_right ?_⟩
      rintro ⟨-, v, hused, -⟩
      rw [hused] at hfree
      cases hfree.2.1
    busy := fun x hx c hc hallowed _ => h.busy x hx c hc hallowed (by simp) }

theorem Inv.pushFree (h : Inv (some cid) loose s) (hs : s.pushFree cid = some s')
    (hidle : ∀ x ∈ s.runQueue, s.allowed x cid = false) : Inv none loose s' := by
  obtain ⟨hnew, heq⟩ := Option.ite_none_left_eq_some.mp hs
  cases heq
  have hvacant := h.vacant cid rfl
  exact { h with
    free_nodup := by grind [h.free_nodup]
    free := fun x => by
      rw [List.mem_append, List.mem_singleton, h.free]
      grind
    vacant := by simp
    busy := fun x hx c hc hallowed _ => h.busy x hx c hc hallowed fun heq => by
      cases heq
      exact Bool.false_ne_true ((hidle x hx).symm.trans hallowed) }

/-! ### Handoffs -/

/-- A loose thread becomes the handoff of a thread that is back from the barrier. -/
theorem Inv.handOver (h : Inv hole (dst :: loose) s) (hthread : s.threads th = some t)
    (hstate : t.state = RUNNING) (hplace : t.place = .synced) (hhandoff : t.handoffThread = none)
    (hdst : s.stateOf dst = some QUEUED) (hloose : dst ∉ loose)
    (hallow : s.allowed dst t.cid = true) :
    Inv hole loose (s.setThread th { t with handoffThread := some dst }) := by
  have hseen := seen hthread
  have hplaced := placedOn_iff hthread
  have hnot : ∀ v, s.handoffOf v ≠ some dst := fun v hv =>
    (h.target hv).1 List.mem_cons_self
  generalize ht' : { t with handoffThread := some dst } = t'
  have hallows : ∀ c, t'.allows c = t.allows c := by subst ht'; exact fun _ => rfl
  have hkeeps : ∀ x, (s.setThread th t').stateOf x = s.stateOf x := by grind [hseen.state]
  constructor
  case free_nodup => exact h.free_nodup
  case run_nodup => exact h.run_nodup
  case out_nodup => exact h.out_nodup
  case sleep_nodup => exact h.sleep_nodup
  case free => exact h.free
  case vacant => exact h.vacant
  case context => grind [h.context, hseen.cid]
  case placed => grind [h.placed, hseen.cid, hseen.allowed]
  case run =>
    intro x
    have hhand : (∀ v, (s.setThread th t').handoffOf v ≠ some x) ↔
        x ≠ dst ∧ ∀ v, s.handoffOf v ≠ some x := by
      constructor
      · intro hv
        have hne := hv th
        refine ⟨by grind, fun v => ?_⟩
        have hv := hv v
        grind [hseen.handoff]
      · rintro ⟨hne, hv⟩ v
        have hv := hv v
        grind
    rw [runQueue_setThread, h.run, hkeeps, hhand]
    grind
  case out => grind [h.out]
  case sleep => grind [h.sleep]
  case handoff =>
    intro v x hv
    have hold := h.handoff v x
    grind [hseen.state, hseen.place, hseen.cid, hseen.allowed]
  case unique => grind [h.unique]
  case busy => grind [h.busy, hseen.allowed]
  case gid => grind [h.gid, hseen.gid]
  case fresh => exact fresh_setThread h.fresh hthread
  case cid => exact cid_setThread h.cid (ht' ▸ h.cid th t.cid hseen.cid)

/-- The handoff of a thread becomes a loose thread. -/
theorem Inv.takeOver (h : Inv hole loose s) (hthread : s.threads th = some t)
    (hhandoff : t.handoffThread = some dst) :
    Inv hole (dst :: loose)
      (s.setThread th { t with handoffThread := none, place := .elsewhere }) := by
  have hseen := seen hthread
  have hplaced := placedOn_iff hthread
  have hold : s.handoffOf th = some dst := hseen.handoff.trans hhandoff
  generalize ht' : { t with handoffThread := none, place := .elsewhere } = t'
  have hallows : ∀ c, t'.allows c = t.allows c := by subst ht'; exact fun _ => rfl
  have hkeeps : ∀ x, (s.setThread th t').stateOf x = s.stateOf x := by grind [hseen.state]
  have htarget := h.target hold
  constructor
  case free_nodup => exact h.free_nodup
  case run_nodup => exact h.run_nodup
  case out_nodup => exact h.out_nodup
  case sleep_nodup => exact h.sleep_nodup
  case free => exact h.free
  case vacant => exact h.vacant
  case context => grind [h.context, hseen.cid]
  case placed => grind [h.placed, hseen.cid, hseen.allowed]
  case run =>
    intro x
    have hhand : x ≠ dst → ((∀ v, (s.setThread th t').handoffOf v ≠ some x) ↔
        ∀ v, s.handoffOf v ≠ some x) := by
      refine fun hne => forall_congr' fun v => ?_
      grind
    rw [runQueue_setThread, h.run, hkeeps]
    grind
  case out => grind [h.out]
  case sleep => grind [h.sleep]
  case handoff =>
    intro v x hv
    have hold := h.handoff v x
    have hunique := h.unique v th x
    grind [hseen.state, hseen.place, hseen.cid, hseen.allowed]
  case unique => grind [h.unique]
  case busy => grind [h.busy, hseen.allowed]
  case gid => grind [h.gid, hseen.gid]
  case fresh => exact fresh_setThread h.fresh hthread
  case cid => exact cid_setThread h.cid (ht' ▸ h.cid th t.cid hseen.cid)

end Scheduler

end Doppelganger.Scheduling
