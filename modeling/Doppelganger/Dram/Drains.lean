import Doppelganger.Dram.Wakeups
import Mathlib.Data.Finset.Max

/-! The queues drain.  A tick that neither serves nor admits a request only waits for the data bus,
or for the first request that is ready; so there are at most two of these, one after the other,
between refreshes.  A refresh can make the event come too early again, but the refreshes fall
behind: sooner or later, all timing constraints end before the next one. -/

namespace Doppelganger.Dram

/-- How many requests arrive in an operation. -/
def Op.requests : Op → Nat
  | .enqueue .. => 1
  | .fire _ => 0
  | .refresh => 0

/-- With at most `k` requests more, and in whatever order the operations come, no step fails, and
after finitely many steps no request waits. -/
inductive Drains (cfg : Config) : Nat → DDRMemory → Prop
  | empty {k : Nat} {s : DDRMemory} (hempty : s.ctl.waiting none = []) : Drains cfg k s
  | step {k : Nat} {s : DDRMemory} (henabled : ∃ op, op.requests = 0 ∧ Enabled op s)
      (hsucceeds : ∀ op, Enabled op s → (step cfg op s).isSome)
      (hdrains : ∀ op j s', op.requests + j = k → Enabled op s → step cfg op s = some s' →
        Drains cfg j s') : Drains cfg k s

namespace DDRMemory

variable {cfg : Config} {s s' : DDRMemory} {b e k n p t w : Nat}

/-! ### Steps -/

theorem Events.lookup_of_mem (h : s.Events cfg) {ev cycle : Nat} (hmem : (ev, cycle) ∈ s.pending) :
    s.pending.lookup ev = some cycle := by
  obtain ⟨l₁, l₂, hl⟩ := List.append_of_mem hmem
  have hnodup := h.nodup
  rw [hl, List.map_append, List.map_cons] at hnodup
  refine List.lookup_eq_some_iff.mpr ⟨l₁, l₂, hl, fun q hq => ?_⟩
  have hne := (List.nodup_append.mp hnodup).2.2 q.1 (List.mem_map_of_mem hq) ev List.mem_cons_self
  exact bne_iff_ne.mpr hne.symm

/-- A tick or a refresh can always come next. -/
theorem Events.exists_enabled (h : s.Events cfg) : ∃ op : Op, op.requests = 0 ∧ Enabled op s := by
  by_cases hempty : s.pending = []
  · refine ⟨.refresh, rfl, fun q hq => ?_⟩
    rw [hempty] at hq
    exact absurd hq List.not_mem_nil
  · obtain ⟨⟨ev, cycle⟩, hmem, hleast⟩ := Finset.exists_min_image s.pending.toFinset Prod.snd
      (List.toFinset_nonempty_iff _ |>.mpr hempty)
    simp only [List.mem_toFinset] at hmem hleast
    obtain hlt | hle := Nat.lt_or_ge s.refreshCycle cycle
    · exact ⟨.refresh, rfl, fun q hq => hlt.le.trans (hleast q hq)⟩
    · exact ⟨.fire ev, rfl, cycle, h.lookup_of_mem hmem, hleast, hle⟩

/-- The requests have addresses that `mapLineAddr` accepts. -/
def Mapped (cfg : Config) : Prop := ∀ lineAddr, ∃ loc, cfg.mapLineAddr lineAddr = some loc

/-- The parameters of a controller that has room for requests. -/
structure Works (cfg : Config) : Prop where
  valid : cfg.Valid
  depth : 0 < cfg.queueDepth
  mapped : Mapped cfg

theorem Inv.step_inv (h : s.Inv cfg) (hw : Works cfg) {op : Op} (henabled : Enabled op s) :
    ∃ s', step cfg op s = some s' ∧ s'.Inv cfg ∧ s'.numRequests = s.numRequests + op.requests := by
  cases op with
  | enqueue lineAddr write sys =>
    obtain ⟨loc, hloc⟩ := hw.mapped lineAddr
    exact h.enqueue hw.valid hw.depth hloc write henabled.2.1
  | fire ev =>
    obtain ⟨cycle, hlookup, hfirst, -⟩ := henabled
    cases hstate : s.schedEvents ev with
    | IDLE =>
      have hbusy := (h.events.pending ev).mp (List.mem_map_of_mem (mem_of_lookup hlookup))
      exact absurd hstate hbusy
    | RUNNING => exact absurd hstate (h.events.states ev)
    | QUEUED =>
      obtain ⟨s', hfire, hinv, -, -, -, hnum, -⟩ :=
        h.fire_queued hw.valid hw.depth hlookup hstate hfirst
      exact ⟨s', hfire, hinv, hnum⟩
    | ANNULLED =>
      obtain ⟨s', hfire, hinv, hsame, -⟩ := h.fire_annulled hlookup hstate hfirst
      exact ⟨s', hfire, hinv, hsame.numRequests⟩
  | refresh => exact ⟨_, rfl, h.refresh hw.valid henabled, rfl⟩

/-! ### The measure -/

/-- No timing constraint is after memory cycle `b`, and the next tick is not long after it. -/
structure Due (cfg : Config) (s : DDRMemory) (b : Nat) : Prop where
  below : s.ctl.Below b
  resp : s.ctl.minRespCycle ≤ b
  next : ∀ t, s.nextSchedCycle = some t → t ≤ b + cfg.readyDelay

/-- At most `p` ticks wait, if no refresh comes between them. -/
def Patient (cfg : Config) (s : DDRMemory) (p : Nat) : Prop :=
  ∀ t, s.nextSchedCycle = some t →
    (p < 2 → s.ctl.minRespCycle ≤ t + cfg.timing.tCL) ∧ (p < 1 → s.ctl.Ready cfg t)

theorem patient_two (cfg : Config) (s : DDRMemory) : Patient cfg s 2 :=
  fun _ _ => ⟨fun h => absurd h (by decide), fun h => absurd h (by decide)⟩

theorem Inv.exists_due (h : s.Inv cfg) : ∃ b, s.Due cfg b := by
  obtain ⟨b, hb⟩ := h.ctl.bounded
  refine ⟨b + s.ctl.minRespCycle + s.nextSchedCycle.getD 0, ⟨?_, ?_, ?_⟩, by omega, fun t ht => ?_⟩
  · intro rank bank
    have hold := hb.banks rank bank
    omega
  · intro rank
    have hold := hb.windows rank
    omega
  · intro r hr
    have hold := hb.arrivals r hr
    omega
  · rw [ht, Option.getD_some]
    omega

/-- A refresh delays requests less than the time to the next one. -/
theorem Due.refresh (h : s.Due cfg b) (hv : cfg.Valid)
    (hless : b + cfg.readyDelay < cfg.sysToMemCycle s.refreshCycle + (e + 1)) :
    ∃ b', (s.refresh cfg).Due cfg b' ∧
      b' + cfg.readyDelay < cfg.sysToMemCycle (s.refresh cfg).refreshCycle + e := by
  have hinterval : cfg.sysToMemCycle s.refreshCycle + cfg.timing.tREFI ≤
      cfg.sysToMemCycle (s.refresh cfg).refreshCycle := hv.refInterval_le s.refreshCycle
  have hrp := hv.rp_le
  have hrefi := hv.refresh
  refine ⟨max b (cfg.sysToMemCycle s.refreshCycle) + cfg.timing.tRFC - cfg.timing.tRP,
    ⟨h.below.refresh hv _, ?_, fun t ht => ?_⟩, ?_⟩
  · have hresp := h.resp
    show s.ctl.minRespCycle ≤ _
    omega
  · have hnext := h.next t ht
    omega
  · unfold Config.readyDelay at hless ⊢
    omega

/-- A tick that waits makes the next one wait less. -/
theorem Patient.wait (h : Patient cfg s p) (hnext : s.nextSchedCycle = some n)
    (hctl : s'.ctl = s.ctl)
    (hnext' : s'.nextSchedCycle = some t)
    (hwhy : n + cfg.timing.tCL < s.ctl.minRespCycle ∧ t = s.ctl.minRespCycle - cfg.timing.tCL ∨
      s.ctl.minRespCycle ≤ n + cfg.timing.tCL ∧ ¬s.ctl.Ready cfg n ∧ s.ctl.FirstReady cfg t)
    (hlater : n < t) : ∃ q, q < p ∧ Patient cfg s' q := by
  obtain ⟨hresp, hready⟩ := h n hnext
  obtain ⟨hearly, rfl⟩ | ⟨hlate, hnot, hfirst⟩ := hwhy
  · have hp : 1 < p := Nat.lt_of_not_le fun hle => by
      have hle := hresp (by omega)
      omega
    refine ⟨1, hp, fun t ht => ?_⟩
    rw [hnext'] at ht
    cases ht
    rw [hctl]
    exact ⟨fun _ => by omega, fun hlt => absurd hlt (by decide)⟩
  · have hp : 0 < p := Nat.pos_of_ne_zero fun hzero => hnot (hready (by omega))
    refine ⟨0, hp, fun t ht => ?_⟩
    rw [hnext'] at ht
    cases ht
    rw [hctl]
    exact ⟨fun _ => by omega, fun _ => hfirst.ready⟩

/-- When all constraints end before the next refresh, the next tick comes before it, too. -/
theorem Due.tick_first (h : s.Due cfg b) (hinv : s.Inv cfg) (hqueues : ¬s.ctl.Empty)
    (hless : b + cfg.readyDelay < cfg.sysToMemCycle s.refreshCycle) : ¬Enabled .refresh s := by
  intro hrefresh
  obtain ⟨ev, cycle, -, hmem, hcycle⟩ := hinv.exists_next hqueues
  have hnext := h.next _ hcycle
  have hmono : cfg.sysToMemCycle s.refreshCycle ≤ cfg.sysToMemCycle cycle :=
    cfg.sysToMemCycle_mono (hrefresh _ hmem)
  omega

/-- A step that is no request makes the requests fewer, or `3 * e + p` and the pending events. -/
theorem Inv.drains_of_measure (hw : Works cfg)
    (hfewer : ∀ j < k, ∀ s : DDRMemory, s.Inv cfg → Drains cfg j s)
    (hless : ∀ s : DDRMemory, s.Inv cfg → s.ctl.weight < w → Drains cfg k s) :
    ∀ (m : Nat) (s : DDRMemory) (b e p : Nat), s.Inv cfg → s.ctl.weight ≤ w → s.Due cfg b →
      b + cfg.readyDelay < cfg.sysToMemCycle s.refreshCycle + e → Patient cfg s p →
      3 * e + p + s.pending.length = m → Drains cfg k s := by
  intro m
  induction m using Nat.strong_induction_on with
  | h m ih =>
    intro s b e p hinv hweight hdue hbefore hpatient hm
    by_cases hqueues : s.ctl.Empty
    · refine .empty ?_
      have hover : s.ctl.overflowQueue = [] := by
        by_contra hne
        exact hinv.spilled hne hqueues
      unfold Controller.waiting
      rw [hqueues.1, hqueues.2, hover]
      rfl
    · refine .step hinv.events.exists_enabled (fun op henabled => ?_)
        fun op j s' hj henabled hstep => ?_
      · obtain ⟨s', hstep, -⟩ := hinv.step_inv hw henabled
        rw [hstep]
        rfl
      · cases op with
        | enqueue lineAddr write sys =>
          obtain ⟨s1, hstep1, hinv1, -⟩ := hinv.step_inv hw henabled
          cases hstep.symm.trans hstep1
          have hlt : j < k := by
            rw [← hj]
            exact Nat.lt_add_of_pos_left Nat.one_pos
          exact hfewer j hlt s' hinv1
        | refresh =>
          obtain rfl : j = k := (Nat.zero_add j).symm.trans hj
          cases hstep
          cases e with
          | zero => exact absurd henabled (hdue.tick_first hinv hqueues hbefore)
          | succ e =>
            obtain ⟨b', hdue', hbefore'⟩ := hdue.refresh hw.valid hbefore
            refine ih (3 * e + 2 + s.pending.length) (by omega) _ b' e 2
              (hinv.refresh hw.valid henabled) hweight hdue' hbefore' (patient_two cfg _) rfl
        | fire ev =>
          obtain rfl : j = k := (Nat.zero_add j).symm.trans hj
          obtain ⟨cycle, hlookup, hfirst, -⟩ := henabled
          cases hstate : s.schedEvents ev with
          | IDLE =>
            have hbusy := (hinv.events.pending ev).mp (List.mem_map_of_mem (mem_of_lookup hlookup))
            exact absurd hstate hbusy
          | RUNNING => exact absurd hstate (hinv.events.states ev)
          | ANNULLED =>
            obtain ⟨s1, hfire, hinv', hsame, hnext, hlength⟩ :=
              hinv.fire_annulled hlookup hstate hfirst
            cases hstep.symm.trans hfire
            refine ih (3 * e + p + s'.pending.length) (by omega) s' b e p hinv' ?_ ?_ ?_ ?_ rfl
            · rw [hsame.ctl]
              exact hweight
            · exact ⟨hsame.ctl ▸ hdue.below, hsame.ctl ▸ hdue.resp, hnext ▸ hdue.next⟩
            · rw [hsame.refreshCycle]
              exact hbefore
            · intro t ht
              rw [hsame.ctl]
              exact hpatient t (hnext ▸ ht)
          | QUEUED =>
            obtain ⟨s1, hfire, hinv', hnow, hticked, hrefresh, -, hlength⟩ :=
              hinv.fire_queued hw.valid hw.depth hlookup hstate hfirst
            cases hstep.symm.trans hfire
            generalize hctl : s'.ctl = c, hnext : s'.nextSchedCycle = next at hticked
            cases hticked with
            | work _ hserved => exact hless s' hinv' ((hctl ▸ hserved).trans_le hweight)
            | @wait t _ hlater hwhy =>
              obtain ⟨q, hq, hpatient'⟩ := hpatient.wait hnow hctl hnext hwhy hlater
              refine ih (3 * e + q + s'.pending.length) (by omega) s' b e q hinv' ?_ ?_ ?_
                hpatient' rfl
              · rw [hctl]
                exact hweight
              · refine ⟨hctl ▸ hdue.below, hctl ▸ hdue.resp, fun t' ht' => ?_⟩
                rw [hnext] at ht'
                cases ht'
                obtain ⟨-, rfl⟩ | ⟨-, -, hready⟩ := hwhy
                · have hresp := hdue.resp
                  omega
                · exact hready.le_of_below hw.valid.act_pos hdue.below
              · rw [hrefresh]
                exact hbefore

theorem Inv.drains (hw : Works cfg) (k : Nat) (s : DDRMemory) (h : s.Inv cfg) : Drains cfg k s := by
  induction k using Nat.strong_induction_on generalizing s with
  | h k hfewer =>
    induction hweight : s.ctl.weight using Nat.strong_induction_on generalizing s with
    | h w hless =>
      obtain ⟨b, hdue⟩ := h.exists_due
      refine Inv.drains_of_measure hw hfewer (fun s' hinv hlt => hless _ hlt s' hinv rfl) _ s b
        (b + cfg.readyDelay + 1) 2 h hweight.le hdue (by omega) (patient_two cfg s) rfl

end DDRMemory

end Doppelganger.Dram
