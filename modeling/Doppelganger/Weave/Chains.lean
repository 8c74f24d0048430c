import Doppelganger.Weave.Crossings

/-! What the crossings keep: they are queued and run from their `minStartCycle` on, and a crossing
to which a request may be chained has not run. -/

namespace Doppelganger.Weave

open Function List Lib

namespace CrossingSim

variable {ι : Type*} [DecidableEq ι]

/-- The limit of what was simulated. -/
def reached (sim : ContentionSim (EventName ι)) : Nat :=
  if sim.inCSim then sim.limit else sim.lastLimit

/-- The crossing is there, and it does not start after `cycle`. -/
def Started (s : CrossingSim ι) (c : ι) (cycle : Nat) : Prop :=
  ∃ x ∈ s.crossing c, x.minStartCycle ≤ cycle

/-- Crossings are queued and run from their `minStartCycle` on, and an entry of `lastCrossing`
beyond the last limit is the `minStartCycle` of its crossing. -/
structure Inv (cfg : Config) (numCores : Nat) (s : CrossingSim ι) : Prop where
  sim : s.sim.Inv cfg False
  queued : ∀ d cycle c, (cycle, .crossing c) ∈ (s.sim.domains d).pq → s.Started c cycle
  simulated : ∀ cycle c, (cycle, .crossing c) ∈ s.simulated → s.Started c cycle
  bounded : ∀ r ∈ s.simulated, r.1 ≤ reached s.sim
  waiting : ∀ c, (∀ r ∈ s.simulated, r.2 ≠ .crossing c) → s.Open (.crossing c)
  last : ∀ key, s.sim.lastLimit < (s.last key).cycle →
    ∃ e ∈ (s.last key).ev, ∃ x ∈ s.crossing e, (s.last key).cycle ≤ x.minStartCycle
  stack : ∀ i, ∀ b ∈ s.stack i,
    i < numCores ∧ s.sim.inCSim = false ∧ ∃ x ∈ s.crossing b, s.Open x.parentEv

section

variable {cfg : Config} {numCores thid d cycle limit : Nat} {s s1 : CrossingSim ι} {c ev : ι}
  {x : Crossing ι} {answers : Option ι} {t : Turn ι}

omit [DecidableEq ι] in
theorem Inv.bound (h : s.Inv cfg numCores) (hb : s.sim.inCSim = false) :
    s.sim.InBound cfg False := by
  rcases h.sim with h | h
  · exact h
  · rw [h.weave] at hb
    cases hb

omit [DecidableEq ι] in
theorem Inv.weave (h : s.Inv cfg numCores) (hw : s.sim.inCSim = true) :
    s.sim.InWeave cfg False := by
  rcases h.sim with h | h
  · rw [h.bound] at hw
    cases hw
  · exact h

omit [DecidableEq ι] in
/-- A crossing that starts after the last limit has not run. -/
theorem Inv.not_simulated (h : s.Inv cfg numCores) (hb : s.sim.inCSim = false)
    (hx : s.crossing c = some x) (hlt : s.sim.lastLimit < x.minStartCycle) :
    ∀ r ∈ s.simulated, r.2 ≠ .crossing c := by
  rintro ⟨cycle, e⟩ hr rfl
  obtain ⟨y, hy, hle⟩ := h.simulated cycle c hr
  obtain rfl := Option.some.inj (hx.symm.trans hy)
  have hbound : cycle ≤ s.sim.lastLimit := by
    have hreached := h.bounded _ hr
    rwa [reached, hb] at hreached
  omega

omit [DecidableEq ι] in
/-- The crossing to which a request may be chained has not run. -/
theorem Inv.last_open (h : s.Inv cfg numCores) (hb : s.sim.inCSim = false) {key : LastKey}
    (hlt : s.sim.lastLimit < (s.last key).cycle) : ∃ e ∈ (s.last key).ev,
      s.Open (.crossing e) ∧ ∀ r ∈ s.simulated, r.2 ≠ .crossing e := by
  obtain ⟨e, he, x, hx, hle⟩ := h.last key hlt
  have hnot := h.not_simulated hb hx (Nat.lt_of_lt_of_le hlt hle)
  exact ⟨e, he, h.waiting e hnot, hnot⟩

omit [DecidableEq ι] in
theorem Inv.chained (h : s.Inv cfg numCores) : s.Chained cfg where
  last hb key hd hlt := by
    rw [((h.bound hb).domains _ hd).cycle] at hlt
    exact h.last_open hb hlt
  minStart := h.simulated

omit [DecidableEq ι] in
theorem init_inv (cfg : Config) (numCores : Nat) : (init : CrossingSim ι).Inv cfg numCores where
  sim := ContentionSim.init_inv cfg False
  queued _ _ _ hmem := absurd hmem not_mem_nil
  simulated _ _ hmem := absurd hmem not_mem_nil
  bounded _ hr := absurd hr not_mem_nil
  waiting _ _ := .inl rfl
  last _ hlt := absurd hlt (Nat.not_lt_zero _)
  stack _ _ hb := absurd hb not_mem_nil

omit [DecidableEq ι] in
/-- `enqueueSynced` of an event that is not before the last limit. -/
theorem enqueueSynced_spec {e : EventName ι} {sim : ContentionSim (EventName ι)}
    (h : sim.InBound cfg False)
    (hallowed : ContentionSim.Allowed cfg (.enqueueSynced d e cycle) sim) :
    ∃ sim', sim.enqueueSynced cfg d e cycle = some sim' ∧ sim'.InBound cfg False ∧
      sim'.lastLimit = sim.lastLimit ∧
      ∀ d', ∀ e' ∈ (sim'.domains d').pq, e' = (cycle, e) ∨ e' ∈ (sim.domains d').pq := by
  obtain ⟨sim', hsim, hbound⟩ := @ContentionSim.InBound.enqueueSynced _ _ _ _ _ e _ h hallowed
  have hsome : sim.enqueueSynced cfg d e cycle = some (sim.setDomain d
      { sim.domains d with pq := (cycle, e) :: (sim.domains d).pq }) := if_pos hallowed
  obtain rfl := Option.some.inj (hsome.symm.trans hsim)
  refine ⟨_, hsim, hbound, rfl, fun d' e' he' => ?_⟩
  by_cases hd : d' = d
  · subst hd
    rw [ContentionSim.setDomain] at he'
    simpa using he'
  · exact .inr (by simpa [ContentionSim.setDomain, hd] using he')

omit [DecidableEq ι] in
/-- Another state of the simulation in the same bound phase. -/
theorem Inv.withSim (h : s.Inv cfg numCores) (hb : s.sim.inCSim = false)
    {sim' : ContentionSim (EventName ι)} (hbound : sim'.InBound cfg False)
    (hlast : sim'.lastLimit = s.sim.lastLimit)
    (hpq : ∀ d cycle c, (cycle, .crossing c) ∈ (sim'.domains d).pq → s.Started c cycle) :
    Inv cfg numCores { s with sim := sim' } where
  sim := .inl hbound
  queued := hpq
  simulated := h.simulated
  bounded r hr := by
    have hr' := h.bounded r hr
    simpa [reached, hb, hbound.bound, hlast] using hr'
  waiting := h.waiting
  last key hlt := h.last key (by simpa [hlast] using hlt)
  stack i b hmem := by
    obtain ⟨hi, -, hx⟩ := h.stack i b hmem
    exact ⟨hi, hbound.bound, hx⟩

omit [DecidableEq ι] in
/-- Events change their states, and those that were open stay so. -/
theorem Inv.withState (h : s.Inv cfg numCores) {state : EventName ι → EventState}
    (hopen : ∀ e, s.Open e → state e = .NONE ∨ state e = .QUEUED) :
    Inv cfg numCores { s with state := state } where
  sim := h.sim
  queued := h.queued
  simulated := h.simulated
  bounded := h.bounded
  waiting c hc := hopen _ (h.waiting c hc)
  last := h.last
  stack i b hmem := by
    obtain ⟨hi, hb, x, hx, hx'⟩ := h.stack i b hmem
    exact ⟨hi, hb, x, hx, hopen _ hx'⟩

theorem open_update {e : EventName ι} {state : EventState} (hstate : state = .NONE ∨ state =
    .QUEUED)
    (e' : EventName ι) (he : s.Open e') :
    update s.state e state e' = .NONE ∨ update s.state e state e' = .QUEUED := by
  by_cases heq : e' = e
  · rw [heq, update_self]
    exact hstate
  · rw [update_of_ne heq]
    exact he

theorem Inv.queue (h : s.Inv cfg numCores) (hok : Allowed cfg numCores (.queue d ev cycle) s) :
    ∃ s', s.queue cfg d ev cycle = some s' ∧ s'.Inv cfg numCores := by
  obtain ⟨hnone, hallowed⟩ := hok
  obtain ⟨sim, hsim, hbound, hlast, hpq⟩ := enqueueSynced_spec (h.bound hallowed.1) hallowed
  rw [CrossingSim.queue, if_pos hnone, hsim]
  refine ⟨_, rfl, (h.withSim hallowed.1 hbound hlast fun d' cycle' c hmem => ?_).withState
    (open_update (.inr rfl))⟩
  rcases hpq d' _ hmem with heq | hmem
  · cases heq
  · exact h.queued d' cycle' c hmem

/-- A new crossing. -/
theorem Inv.withCrossing (h : s.Inv cfg numCores) (hnew : s.crossing c = none) :
    (s.withCrossing c x answers).Inv cfg numCores := by
  have hkeep {c' : ι} {y : Crossing ι} (hy : s.crossing c' = some y) :
      (update s.crossing c (some x)) c' = some y := by
    rw [update_of_ne]
    · exact hy
    · rintro rfl
      rw [hnew] at hy
      cases hy
  have hstarted {c' : ι} {cycle : Nat} : s.Started c' cycle →
      ∃ y ∈ update s.crossing c (some x) c', y.minStartCycle ≤ cycle := by
    rintro ⟨y, hy, hle⟩
    exact ⟨y, hkeep hy, hle⟩
  have hopen := @open_update _ _ s (.crossing c) .NONE (.inl rfl)
  refine ⟨h.sim, fun d cycle c' hmem => hstarted (h.queued d cycle c' hmem),
    fun cycle c' hmem => hstarted (h.simulated cycle c' hmem), h.bounded,
    fun c' hc => hopen _ (h.waiting c' hc), fun key hlt => ?_, fun i b hmem => ?_⟩
  · obtain ⟨e, he, y, hy, hle⟩ := h.last key hlt
    exact ⟨e, he, y, hkeep hy, hle⟩
  · obtain ⟨hi, hb, y, hy, hy'⟩ := h.stack i b hmem
    exact ⟨hi, hb, y, hkeep hy, hopen _ hy'⟩

omit [DecidableEq ι] in
/-- A request that was made becomes the last one. -/
theorem Inv.pushRequest (h : s.Inv cfg numCores) (hb : s.sim.inCSim = false)
    (hi : x.srcId < numCores) (hx : s.crossing c = some x) (hopen : s.Open x.parentEv) :
    (s.pushRequest c x (max s.sim.lastLimit x.minStartCycle)).Inv cfg numCores where
  sim := h.sim
  queued := h.queued
  simulated := h.simulated
  bounded := h.bounded
  waiting := h.waiting
  last key hlt := by
    by_cases hkey : key = x.key
    · subst hkey
      simp only [CrossingSim.pushRequest, update_self] at hlt ⊢
      exact ⟨c, rfl, x, hx, by omega⟩
    · simp only [CrossingSim.pushRequest, update_of_ne hkey] at hlt ⊢
      exact h.last key hlt
  stack i b hmem := by
    by_cases hsrc : i = x.srcId
    · subst hsrc
      simp only [CrossingSim.pushRequest, update_self] at hmem
      rcases mem_cons.mp hmem with rfl | hmem
      · exact ⟨hi, hb, x, hx, hopen⟩
      · exact h.stack _ b hmem
    · simp only [CrossingSim.pushRequest, update_of_ne hsrc] at hmem
      exact h.stack i b hmem

omit [DecidableEq ι] in
/-- Elements of the stacks are taken off. -/
theorem Inv.withStack (h : s.Inv cfg numCores) {stack unanswered : Nat → List ι}
    (paired : List (ι × ι)) (hsub : ∀ i, stack i ⊆ s.stack i) :
    Inv cfg numCores
      { s with stack := stack, unanswered := unanswered, paired := paired } where
  sim := h.sim
  queued := h.queued
  simulated := h.simulated
  bounded := h.bounded
  waiting := h.waiting
  last := h.last
  stack i b hmem := h.stack i b (hsub i hmem)

omit [DecidableEq ι] in
theorem response_spec {b : ι} {y : Crossing ι} (h : s.response x = some (b, y)) :
    (s.stack x.srcId).head? = some b ∧ s.crossing b = some y ∧ y.Answers x := by
  obtain ⟨b', hb', h⟩ := Option.bind_eq_some_iff.mp h
  obtain ⟨y', hy', h⟩ := Option.bind_eq_some_iff.mp h
  rw [Option.ite_none_right_eq_some] at h
  obtain ⟨hans, h⟩ := h
  obtain ⟨rfl, rfl⟩ := Prod.mk.inj (Option.some.inj h)
  exact ⟨hb', hy', hans⟩

omit [DecidableEq ι] in
theorem Inv.enqueueRequest (h : s.Inv cfg numCores) (hb : s.sim.inCSim = false)
    (hi : x.srcId < numCores) (hsrc : x.srcDomain < cfg.numDomains)
    (hdst : x.domain < cfg.numDomains) (hx : s.crossing c = some x) (hopen : s.Open x.parentEv)
    (hfar : max s.sim.lastLimit x.minStartCycle <
      s.sim.lastLimit + 10 * cfg.phaseLength + 10000) :
    ∃ s', s.enqueueRequest cfg c x (max s.sim.lastLimit x.minStartCycle) = some s' ∧
      s'.Inv cfg numCores := by
  have hcur : (s.sim.domains x.srcDomain).curCycle = s.sim.lastLimit :=
    ((h.bound hb).domains _ hsrc).cycle
  rw [CrossingSim.enqueueRequest, hcur]
  split
  case isTrue hlt =>
    obtain ⟨e, he, hopene, -⟩ := h.last_open hb hlt.1
    rw [he, Option.bind_some, if_pos hopene]
    exact ⟨_, rfl, h.pushRequest hb hi hx hopen⟩
  case isFalse =>
    obtain ⟨sim, hsim, hbound, hlast, hpq⟩ := enqueueSynced_spec (e := .crossing c) (h.bound hb)
      ⟨hb, hdst, Nat.le_max_left .., hfar⟩
    rw [if_pos (Nat.le_max_left ..), hsim]
    have h' : Inv cfg numCores { s with sim := sim } := by
      refine h.withSim hb hbound hlast fun d cycle c' hmem => ?_
      rcases hpq d _ hmem with heq | hmem
      · obtain ⟨rfl, hc⟩ := Prod.mk.inj heq
        cases hc
        exact ⟨x, hx, Nat.le_max_right ..⟩
      · exact h.queued d cycle c' hmem
    refine ⟨_, rfl, ?_⟩
    rw [← hlast]
    exact h'.pushRequest hbound.bound hi hx hopen

theorem Inv.newCrossing (h : s.Inv cfg numCores)
    (hok : Allowed cfg numCores (.crossing c x answers) s) :
    ∃ s', s.newCrossing cfg c x answers = some s' ∧ s'.Inv cfg numCores := by
  obtain ⟨hb, hi, hsrc, hdst, hne, hnew, hopen, hfar, -⟩ := hok
  have h0 : (s.withCrossing c x answers).Inv cfg numCores := h.withCrossing hnew
  rw [CrossingSim.newCrossing, if_pos hne, enqueueCrossing]
  cases hresp : (s.withCrossing c x answers).response x with
  | none =>
    exact h0.enqueueRequest hb hi hsrc hdst (update_self ..) (open_update (.inl rfl) _ hopen) hfar
  | some r =>
    obtain ⟨b, y⟩ := r
    obtain ⟨hhead, hy, -⟩ := response_spec hresp
    obtain ⟨-, -, y', hy', hopen'⟩ := h0.stack x.srcId b (mem_of_mem_head? hhead)
    obtain rfl := Option.some.inj (hy.symm.trans hy')
    simp only [if_pos hopen']
    refine ⟨_, rfl, h0.withStack _ fun i => ?_⟩
    by_cases hsame : i = x.srcId
    · subst hsame
      rw [update_self]
      exact fun b hb => mem_of_mem_tail hb
    · rw [update_of_ne hsame]
      exact Subset.refl _

omit [DecidableEq ι] in
theorem Inv.recorded (h : s.Inv cfg numCores) (srcId : Nat) : (s.recorded srcId).Inv cfg numCores :=
    by
  refine h.withStack s.paired fun i => ?_
  by_cases hsame : i = srcId
  · subst hsame
    rw [update_self]
    exact nil_subset _
  · rw [update_of_ne hsame]
    exact Subset.refl _

theorem Inv.start (h : s.Inv cfg numCores) (hok : Allowed cfg numCores (.start limit) s) :
    ∃ s', step cfg (.start limit) s = some s' ∧ s'.Inv cfg numCores := by
  obtain ⟨⟨hb, hlimit⟩, hstacks⟩ := hok
  obtain ⟨sim, hsim, hweave⟩ := (h.bound hb).start hlimit
  have hsim' := hsim
  rw [ContentionSim.start, if_pos ⟨hb, hlimit⟩] at hsim'
  obtain rfl := Option.some.inj hsim'
  rw [step, hsim]
  refine ⟨_, rfl, .inr hweave, h.queued, h.simulated, fun r hr => ?_, h.waiting, h.last,
    fun i b hmem => ?_⟩
  · have hr' := h.bounded r hr
    rw [reached, hb] at hr'
    exact Nat.le_trans hr' hlimit
  · rw [hstacks i (h.stack i b hmem).1] at hmem
    exact absurd hmem not_mem_nil

theorem Inv.finish (h : s.Inv cfg numCores) (hok : Allowed cfg numCores .finish s) :
    ∃ s', step cfg .finish s = some s' ∧ s'.Inv cfg numCores := by
  obtain ⟨hw, hdone⟩ := hok
  obtain ⟨sim, hsim, hbound⟩ := (h.weave hw).finish hdone
  have hsim' := hsim
  rw [ContentionSim.finish, if_pos ⟨hw, hdone⟩] at hsim'
  obtain rfl := Option.some.inj hsim'
  rw [step, hsim]
  refine ⟨_, rfl, .inl hbound, h.queued, h.simulated, fun r hr => ?_, h.waiting, fun key hlt => ?_,
    fun i b hmem => ?_⟩
  · have hr' := h.bounded r hr
    rwa [reached, hw] at hr'
  · exact h.last key (Nat.lt_of_le_of_lt (h.weave hw).limits hlt)
  · have hb := (h.stack i b hmem).2.1
    rw [hw] at hb
    cases hb

omit [DecidableEq ι] in
/-- What a turn queues: the event itself, and others not before they start. -/
theorem triggered_started {cycle : Nat}
    (hwoken : ∀ e ∈ t.woken, s.Known e.2)
    (hevent : ∀ c, t.event.2 = .crossing c → s.Started c t.event.1)
    (hle : ∀ e ∈ s.triggered t, t.event.1 ≤ e.1) (hmem : (cycle, .crossing c) ∈ s.triggered t) :
    s.Started c cycle := by
  have hcycle := hle _ hmem
  rcases mem_append.mp hmem with hmem | hmem
  · obtain ⟨cycle', -, heq⟩ := mem_map.mp hmem
    obtain ⟨-, hc⟩ := Prod.mk.inj heq
    obtain ⟨x, hx, hx'⟩ := hevent c hc
    exact ⟨x, hx, Nat.le_trans hx' hcycle⟩
  · obtain ⟨e, he, heq⟩ := mem_map.mp hmem
    obtain ⟨rfl, hc⟩ := Prod.mk.inj heq
    have hknown := hwoken e he
    rw [hc] at hknown ⊢
    obtain ⟨x, hx⟩ := Option.isSome_iff_exists.mp hknown
    refine ⟨x, hx, ?_⟩
    simp only [startCycle, hx, Option.map_some, Option.getD_some]
    exact Nat.le_max_right ..

theorem Inv.round (h : s.Inv cfg numCores) (hok : Allowed cfg numCores (.round thid t) s) :
    ∃ s', s.round cfg thid t = some s' ∧ s'.Inv cfg numCores := by
  obtain ⟨hallowed, hturn⟩ := hok
  have hw : s.sim.inCSim = true := by
    rcases h.sim with hb | hw
    · exact absurd (hb.asleep thid) hallowed.2.1
    · exact hw.weave
  obtain ⟨sim, hsim, hweave⟩ := (h.weave hw).round hallowed nofun
  have hframe := round_frame hsim
  have hevents := hallowed.2.2.2.2
  have hstack (i : Nat) : s.stack i = [] := by
    refine eq_nil_iff_forall_not_mem.mpr fun b hb => ?_
    have hbound := (h.stack i b hb).2.1
    rw [hw] at hbound
    cases hbound
  have hlast (key : LastKey) (hlt : sim.lastLimit < (s.last key).cycle) :=
    h.last key (hframe.lastLimit ▸ hlt)
  have hreached : reached sim = reached s.sim := by
    rw [reached, reached, hframe.inCSim, hframe.limit, hframe.lastLimit]
  rw [CrossingSim.round, hsim, Option.bind_some]
  cases hruns : s.sim.runs cfg thid (s.choice t) with
  | none =>
    refine ⟨_, rfl, .inr hweave, fun d cycle c hmem => ?_, h.simulated, fun r hr => ?_, h.waiting,
      hlast, fun i b hb => ?_⟩
    · rcases hframe.pq d _ hmem with ⟨hsome, -⟩ | hpq
      · rw [hruns] at hsome
        cases hsome
      · exact h.queued d cycle c hpq
    · rw [hreached]
      exact h.bounded r hr
    · rw [hstack i] at hb
      exact absurd hb not_mem_nil
  | some d =>
    obtain ⟨hopen, hwoken⟩ := hturn (by rw [hruns, Option.isSome_some])
    obtain ⟨hfirst, htrig⟩ := hevents d hruns
    have hdue : t.event.1 ≤ s.sim.limit := by
      obtain ⟨e, he, hle⟩ := runs_due hruns
      exact Nat.le_trans (hfirst.2 e he) hle
    have hevent (c : ι) (hc : t.event.2 = .crossing c) : s.Started c t.event.1 :=
      h.queued d _ c (hc ▸ hfirst.1)
    rw [if_pos (Option.isSome_some ..), if_pos ⟨hopen, fun e he => (hwoken e he).1⟩]
    refine ⟨_, rfl, .inr hweave, fun d' cycle c hmem => ?_, fun cycle c hmem => ?_, fun r hr => ?_,
      fun c hc => ?_, hlast, fun i b hb => ?_⟩
    · rcases hframe.pq d' _ hmem with ⟨-, htriggered⟩ | hpq
      · exact triggered_started (fun e he => (hwoken e he).2) hevent
          (fun e he => (htrig e he).1) htriggered
      · exact h.queued d' cycle c hpq
    · rcases mem_cons.mp hmem with heq | hmem
      · rw [← heq] at hevent
        exact hevent c rfl
      · exact h.simulated cycle c hmem
    · rw [hreached]
      rcases mem_cons.mp hr with rfl | hr
      · rw [reached, hw]
        exact hdue
      · exact h.bounded r hr
    · have hc' := h.waiting c fun r hr => hc r (mem_cons_of_mem _ hr)
      have hne : .crossing c ≠ t.event.2 := (hc t.event (mem_cons_self ..)).symm
      simp only [Open, states]
      split
      · exact .inr rfl
      · exact hc'
    · rw [hstack i] at hb
      exact absurd hb not_mem_nil

theorem Inv.step {op : CrossingOp ι} (h : s.Inv cfg numCores) (hok : Allowed cfg numCores op s) :
    ∃ s', step cfg op s = some s' ∧ s'.Inv cfg numCores := by
  cases op with
  | queue d ev cycle => exact h.queue hok
  | crossing c x answers => exact h.newCrossing hok
  | recorded srcId => exact ⟨_, rfl, h.recorded srcId⟩
  | start limit => exact h.start hok
  | round thid t => exact h.round hok
  | finish => exact h.finish hok

end

end CrossingSim

end Doppelganger.Weave
