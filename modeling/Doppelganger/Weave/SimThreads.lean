import Doppelganger.Lib.Run
import Doppelganger.Weave.Domains

/-! The simulation threads of a weave phase.  Each thread has its own range of domains, and those
that are not in its queues have ended; so when the threads are done, all domains have. -/

namespace Doppelganger.Weave

open Function List Lib

namespace Config

variable {cfg : Config} {thid thid' d : Nat}

def Owns (cfg : Config) (thid d : Nat) : Prop := cfg.firstDomain thid ≤ d ∧ d < cfg.supDomain thid

theorem numDomains_eq (cfg : Config) : cfg.numDomains = cfg.numSimThreads * cfg.perThread :=
  (Nat.mul_div_cancel' (Nat.dvd_of_mod_eq_zero cfg.dvd)).symm

theorem firstDomain_eq (cfg : Config) (thid : Nat) :
    cfg.firstDomain thid = thid * cfg.perThread := by
  rw [firstDomain, numDomains_eq, Nat.mul_left_comm, Nat.mul_div_cancel_left _ cfg.pos]

theorem supDomain_eq (cfg : Config) (thid : Nat) :
    cfg.supDomain thid = thid * cfg.perThread + cfg.perThread := by
  rw [← Nat.succ_mul]
  exact cfg.firstDomain_eq (thid + 1)

theorem thDomains_eq (cfg : Config) (thid : Nat) : cfg.thDomains thid = cfg.perThread := by
  rw [thDomains, supDomain_eq, firstDomain_eq, Nat.add_sub_cancel_left]

theorem Owns.eq (h : cfg.Owns thid d) (h' : cfg.Owns thid' d) : thid = thid' := by
  rw [Owns, firstDomain_eq, supDomain_eq, ← Nat.succ_mul] at h h'
  rw [← Nat.div_eq_of_lt_le h.1 h.2, Nat.div_eq_of_lt_le h'.1 h'.2]

theorem Owns.lt (h : cfg.Owns thid d) (hthid : thid < cfg.numSimThreads) : d < cfg.numDomains := by
  rw [numDomains_eq]
  refine Nat.lt_of_lt_of_le h.2 ?_
  rw [supDomain_eq, ← Nat.succ_mul]
  exact Nat.mul_le_mul_right _ hthid

theorem exists_owner (hd : d < cfg.numDomains) : ∃ thid < cfg.numSimThreads, cfg.Owns thid d := by
  rw [numDomains_eq] at hd
  have hpos : 0 < cfg.perThread := Nat.pos_of_mul_pos_left (Nat.zero_lt_of_lt hd)
  refine ⟨d / cfg.perThread, Nat.div_lt_of_lt_mul (Nat.mul_comm .. ▸ hd), ?_, ?_⟩
  · rw [firstDomain_eq]
    exact Nat.div_mul_le_self d _
  · rw [supDomain_eq, Nat.mul_comm]
    exact Nat.lt_mul_div_succ d hpos

theorem owns_first (hone : cfg.perThread = 1) (thid : Nat) :
    cfg.Owns thid d ↔ d = cfg.firstDomain thid := by
  rw [Owns, supDomain_eq, firstDomain_eq, hone]
  omega

end Config

/-- The domains in the queues of a thread. -/
def Loops.queued (l : Loops) : List Nat := l.domPq ++ (l.stalledQueue ++ l.nextStalledQueue)

namespace Loops

theorem queued_push (d prio : Nat) (l : Loops) :
    (l.push d prio).queued.Perm (d :: l.queued) ∧ (l.push d prio).numFinished = l.numFinished := by
  rw [push]
  split
  · exact ⟨.rfl, rfl⟩
  · split
    · refine ⟨?_, rfl⟩
      simp only [queued]
      rw [← append_assoc, ← append_assoc]
      exact perm_middle
    · exact ⟨perm_middle, rfl⟩

theorem queued_swap (l : Loops) :
    l.swap.queued.Perm l.queued ∧ l.swap.numFinished = l.numFinished := by
  rw [swap]
  split
  · next hnil => exact ⟨by simp [queued, hnil], rfl⟩
  · exact ⟨.rfl, rfl⟩

theorem queued_next (l : Loops) :
    l.next.queued.Perm l.queued ∧ l.next.numFinished = l.numFinished := by
  rw [next]
  split
  · exact l.queued_swap
  · exact ⟨.rfl, rfl⟩

end Loops

namespace ContentionSim

variable {ι : Type*}

/-- The domains of a thread are in its queues, or they have ended. -/
structure Share (cfg : Config) (limit : Nat) (domains : Nat → DomainData ι) (thid : Nat)
    (queued : List Nat) (numFinished : Nat) : Prop where
  several : cfg.perThread ≠ 1
  nodup : queued.Nodup
  owned : ∀ d ∈ queued, cfg.Owns thid d
  number : queued.length + numFinished = cfg.perThread
  ended : ∀ d, cfg.Owns thid d → d ∉ queued → (domains d).Ended cfg limit

def ThreadOk (cfg : Config) (limit : Nat) (domains : Nat → DomainData ι) (thid : Nat) :
    SimThread → Prop
  | .asleep => False
  | .single => cfg.perThread = 1
  | .many l => Share cfg limit domains thid l.queued l.numFinished
  | .done => ∀ d, cfg.Owns thid d → (domains d).Ended cfg limit

/-- A bound phase. -/
structure InBound (cfg : Config) (ordered : Prop) (s : ContentionSim ι) : Prop where
  bound : s.inCSim = false
  asleep : ∀ thid, s.simThreads thid = .asleep
  domains : ∀ d < cfg.numDomains, (s.domains d).Waiting ordered s.lastLimit

/-- A weave phase. -/
structure InWeave (cfg : Config) (ordered : Prop) (s : ContentionSim ι) : Prop where
  weave : s.inCSim = true
  limits : s.lastLimit ≤ s.limit
  domains : ∀ d < cfg.numDomains, (s.domains d).Weaving cfg ordered s.lastLimit s.limit
  threads : ∀ thid < cfg.numSimThreads,
    ThreadOk cfg s.limit s.domains thid (s.simThreads thid)

/-- The phases of a run. -/
def Inv (cfg : Config) (ordered : Prop) (s : ContentionSim ι) : Prop :=
  s.InBound cfg ordered ∨ s.InWeave cfg ordered

/-- In an `ordered` run each event leaves the queue of its domain empty, or with an event up to the
limit. -/
def Within [DecidableEq ι] (cfg : Config) : SimOp ι → ContentionSim ι → Prop
  | .round thid ch, s => ∀ d ∈ s.runs cfg thid ch, ch.Within s.limit (s.domains d).pq
  | _, _ => True

instance [DecidableEq ι] (cfg : Config) :
    ∀ (op : SimOp ι) (s : ContentionSim ι), Decidable (Within cfg op s)
  | .round .., _ => inferInstanceAs (Decidable (∀ _, _ → (_ ∨ _)))
  | .enqueueSynced .., _ | .start _, _ | .finish, _ => isTrue trivial

section

variable {cfg : Config} {ordered : Prop} {limit thid thid' d n n' : Nat} {q q' : List Nat}
  {domains : Nat → DomainData ι} {dom : DomainData ι} {th : SimThread} {s s' : ContentionSim ι}

theorem Share.perm (h : Share cfg limit domains thid q n) (hq : q'.Perm q ∧ n' = n) :
    Share cfg limit domains thid q' n' where
  several := h.several
  nodup := hq.1.nodup_iff.mpr h.nodup
  owned d hd := h.owned d (hq.1.mem_iff.mp hd)
  number := by rw [hq.1.length_eq, hq.2, h.number]
  ended d hd hnot := h.ended d hd fun hmem => hnot (hq.1.mem_iff.mpr hmem)

/-- A domain of the queues changes. -/
theorem Share.ran (h : Share cfg limit domains thid (d :: q) n) (dom : DomainData ι) :
    Share cfg limit (update domains d dom) thid (d :: q) n where
  several := h.several
  nodup := h.nodup
  owned := h.owned
  number := h.number
  ended d' hd' hnot := by
    rw [update_of_ne (ne_of_mem_of_not_mem (mem_cons_self ..) hnot).symm]
    exact h.ended d' hd' hnot

/-- A domain leaves the queues when it has ended. -/
theorem Share.finish (h : Share cfg limit domains thid (d :: q) n)
    (hend : dom.Ended cfg limit) : Share cfg limit (update domains d dom) thid q (n + 1) where
  several := h.several
  nodup := (nodup_cons.mp h.nodup).2
  owned d' hd' := h.owned d' (mem_cons_of_mem _ hd')
  number := by rw [← h.number, length_cons]; omega
  ended d' hd' hnot := by
    by_cases heq : d' = d
    · rwa [heq, update_self]
    · rw [update_of_ne heq]
      exact h.ended d' hd' (by simp [heq, hnot])

/-- A thread does not see the domains of the others. -/
theorem ThreadOk.frame (h : ThreadOk cfg limit domains thid th)
    (hd : ¬cfg.Owns thid d) (dom : DomainData ι) :
    ThreadOk cfg limit (update domains d dom) thid th := by
  have hne : ∀ d', cfg.Owns thid d' → d' ≠ d := fun d' hd' heq => hd (heq ▸ hd')
  cases th with
  | asleep => exact h
  | single => exact h
  | many l =>
    refine ⟨h.several, h.nodup, h.owned, h.number, fun d' hd' hnot => ?_⟩
    rw [update_of_ne (hne d' hd')]
    exact h.ended d' hd' hnot
  | done =>
    intro d' hd'
    rw [update_of_ne (hne d' hd')]
    exact h d' hd'

/-- A thread goes on, and its domains stay as they are. -/
theorem InWeave.thread (h : s.InWeave cfg ordered)
    (hth : ThreadOk cfg s.limit s.domains thid th) : (s.setThread thid th).InWeave cfg ordered where
  weave := h.weave
  limits := h.limits
  domains := h.domains
  threads thid' hthid' := by
    rw [setThread]
    by_cases heq : thid' = thid
    · subst heq
      simpa using hth
    · simpa [heq] using h.threads thid' hthid'

/-- A thread changes one of its domains. -/
theorem InWeave.domain (h : s.InWeave cfg ordered) (hthid : thid < cfg.numSimThreads)
    (hd : cfg.Owns thid d) (hdom : dom.Weaving cfg ordered s.lastLimit s.limit)
    (hth : ThreadOk cfg s.limit (update s.domains d dom) thid th) :
    ((s.setDomain d dom).setThread thid th).InWeave cfg ordered where
  weave := h.weave
  limits := h.limits
  domains d' hd' := by
    by_cases heq : d' = d
    · subst heq
      simpa [setThread, setDomain] using hdom
    · simpa [setThread, setDomain, heq] using h.domains d' hd'
  threads thid' hthid' := by
    by_cases heq : thid' = thid
    · subst heq
      simpa [setThread, setDomain] using hth
    · have hother := (h.threads thid' hthid').frame (fun ho => heq (ho.eq hd)) dom
      simpa [setThread, setDomain, heq] using hother

/-- The inner loops look at a domain. -/
theorem InWeave.visit [DecidableEq ι] {l : Loops} {ch : Choice ι} (h : s.InWeave cfg ordered)
    (hthid : thid < cfg.numSimThreads)
    (hshare : Share cfg s.limit s.domains thid (d :: l.queued) l.numFinished)
    (hevent : (s.domains d).dueMany s.limit = true → Earliest (s.domains d).pq ch.event ∧
      (∀ e ∈ ch.triggered, ch.event.1 ≤ e.1 ∧
        e.1 < s.lastLimit + 10 * cfg.phaseLength + 1000000) ∧
      (ordered → ch.Within s.limit (s.domains d).pq)) :
    ∃ s', s.visit cfg thid d l ch = some s' ∧ s'.InWeave cfg ordered := by
  have howns := hshare.owned d (mem_cons_self ..)
  have hdom := h.domains d (howns.lt hthid)
  rw [ContentionSim.visit]
  by_cases hdue : (s.domains d).dueMany s.limit = true
  · obtain ⟨hfirst, htrig, hwithin⟩ := hevent hdue
    obtain ⟨e, he, hle⟩ := DomainData.dueMany_iff.mp hdue
    obtain ⟨dom, hround, hdom'⟩ := hdom.roundMany hfirst
      ((Config.runs_several hshare.several).mpr (Nat.le_trans (hfirst.2 e he) hle)) htrig hwithin
    refine ⟨_, by rw [if_pos hdue, hround]; rfl, h.domain hthid howns hdom' ?_⟩
    exact ((hshare.ran dom).perm (l.queued_push d dom.prio)).perm (Loops.queued_next _)
  · rw [if_neg hdue]
    obtain ⟨hdom', hend⟩ := hdom.ended h.limits fun e he hr =>
      hdue (DomainData.dueMany_iff.mpr ⟨e, he, (Config.runs_several hshare.several).mp hr⟩)
    refine ⟨_, rfl, h.domain hthid howns hdom' ?_⟩
    exact (hshare.finish hend).perm (Loops.queued_next l.finish)

/-- The loop over one domain. -/
theorem InWeave.roundSingle [DecidableEq ι] {ch : Choice ι} (h : s.InWeave cfg ordered)
    (hth : s.simThreads thid = .single) (hallowed : Allowed cfg (.round thid ch) s)
    (hwithin : ordered → Within cfg (.round thid ch) s) :
    ∃ s', s.round cfg thid ch = some s' ∧ s'.InWeave cfg ordered := by
  obtain ⟨hthid, -, -, -, hevent⟩ := hallowed
  have hone : cfg.perThread = 1 := by simpa [hth, ThreadOk] using h.threads thid hthid
  have howns := (Config.owns_first hone thid).mpr rfl
  have hdom := h.domains _ (howns.lt hthid)
  simp only [Within, runs, hth, Option.mem_def, Option.filter_some] at hevent hwithin
  simp only [ContentionSim.round, hth]
  by_cases hdue : (s.domains (cfg.firstDomain thid)).dueSingle s.limit = true
  · obtain ⟨hfirst, htrig⟩ := hevent _ (if_pos hdue)
    obtain ⟨e, he, hlt⟩ := DomainData.dueSingle_iff.mp hdue
    obtain ⟨dom, hround, hdom'⟩ := hdom.roundSingle hfirst
      ((Config.runs_single hone).mpr (Nat.lt_of_le_of_lt (hfirst.2 e he) hlt)) htrig
      fun ho => hwithin ho _ (if_pos hdue)
    have hsame : s.setThread thid .single = s := by rw [setThread, ← hth, update_eq_self]
    refine ⟨s.setDomain (cfg.firstDomain thid) dom, by rw [if_pos hdue, hround]; rfl, ?_⟩
    rw [← hsame]
    exact h.domain hthid howns hdom' hone
  · obtain ⟨hdom', hend⟩ := hdom.ended h.limits fun e he hr =>
      hdue (DomainData.dueSingle_iff.mpr ⟨e, he, (Config.runs_single hone).mp hr⟩)
    refine ⟨_, if_neg hdue, h.domain hthid howns hdom' fun d hd => ?_⟩
    obtain rfl := (Config.owns_first hone thid).mp hd
    rwa [update_self]

/-- The outer loop goes on until the queues of the thread are empty. -/
theorem Share.outer {l : Loops} (h : Share cfg limit domains thid l.queued l.numFinished) :
    ThreadOk cfg limit domains thid
      (if l.numFinished < cfg.thDomains thid then .many { l with loop := .domains }
        else .done) := by
  rw [Config.thDomains_eq]
  split
  · exact h
  · next hnot =>
    have hnil : l.queued = [] := by
      have hnumber := h.number
      exact length_eq_zero_iff.mp (by omega)
    exact fun d hd => h.ended d hd (by simp [hnil])

/-- The loops over several domains. -/
theorem InWeave.roundMany [DecidableEq ι] {l : Loops} {ch : Choice ι} (h : s.InWeave cfg ordered)
    (hth : s.simThreads thid = .many l) (hallowed : Allowed cfg (.round thid ch) s)
    (hwithin : ordered → Within cfg (.round thid ch) s) :
    ∃ s', s.round cfg thid ch = some s' ∧ s'.InWeave cfg ordered := by
  obtain ⟨hthid, -, -, htop, hevent⟩ := hallowed
  have hshare : Share cfg s.limit s.domains thid l.queued l.numFinished := by
    simpa [hth, ThreadOk] using h.threads thid hthid
  simp only [Within, runs, hth] at hevent hwithin
  simp only [ContentionSim.round, hth]
  rw [hth] at htop
  cases hloop : l.loop with
  | outer => exact ⟨_, rfl, h.thread hshare.outer⟩
  | domains =>
    simp only [hloop] at hevent hwithin
    by_cases hnil : l.domPq = []
    · exact ⟨_, if_pos hnil, h.thread hshare⟩
    · simp only [if_neg hnil, Option.mem_def, Option.filter_some] at hevent hwithin
      simp only [if_neg hnil]
      have hperm := (perm_cons_erase (htop hloop hnil).1).append_right
        (l.stalledQueue ++ l.nextStalledQueue)
      refine h.visit hthid (hshare.perm ⟨hperm.symm, rfl⟩) fun hdue => ?_
      obtain ⟨hfirst, htrig⟩ := hevent _ (if_pos hdue)
      exact ⟨hfirst, htrig, fun ho => hwithin ho _ (if_pos hdue)⟩
  | stalled =>
    simp only [hloop] at hevent hwithin
    cases hqueue : l.stalledQueue with
    | nil => exact ⟨_, rfl, h.thread (hshare.perm l.queued_swap)⟩
    | cons d stalled =>
      simp only [hqueue, head?_cons, Option.mem_def, Option.filter_some] at hevent hwithin
      have hperm : (d :: (l.domPq ++ (stalled ++ l.nextStalledQueue))).Perm l.queued := by
        rw [Loops.queued, hqueue]
        exact perm_middle.symm
      refine h.visit hthid (hshare.perm ⟨hperm, rfl⟩) fun hdue => ?_
      obtain ⟨hfirst, htrig⟩ := hevent _ (if_pos hdue)
      exact ⟨hfirst, htrig, fun ho => hwithin ho _ (if_pos hdue)⟩

/-- A round of `simulatePhaseThread`. -/
theorem InWeave.round [DecidableEq ι] {ch : Choice ι} (h : s.InWeave cfg ordered)
    (hallowed : Allowed cfg (.round thid ch) s)
    (hwithin : ordered → Within cfg (.round thid ch) s) :
    ∃ s', s.round cfg thid ch = some s' ∧ s'.InWeave cfg ordered := by
  cases hth : s.simThreads thid with
  | asleep => exact absurd hth hallowed.2.1
  | single => exact h.roundSingle hth hallowed hwithin
  | many l => exact h.roundMany hth hallowed hwithin
  | done => exact absurd hth hallowed.2.2.1

theorem init_inv (cfg : Config) (ordered : Prop) : (init : ContentionSim ι).Inv cfg ordered :=
  .inl ⟨rfl, fun _ => rfl, fun _ _ => ⟨by simp [init, DomainData.init], rfl,
    fun _ => ⟨.nil, by simp [init, DomainData.init]⟩⟩⟩

/-- The events that cores enqueue are not before the last limit. -/
theorem InBound.enqueueSynced {ev : ι} {cycle : Nat} (h : s.InBound cfg ordered)
    (hallowed : s.inCSim = false ∧ d < cfg.numDomains ∧ s.lastLimit ≤ cycle ∧
      cycle < s.lastLimit + 10 * cfg.phaseLength + 10000) :
    ∃ s', s.enqueueSynced cfg d ev cycle = some s' ∧ s'.InBound cfg ordered := by
  refine ⟨_, if_pos hallowed, h.bound, h.asleep, fun d' hd' => ?_⟩
  have hdom := h.domains d' hd'
  by_cases heq : d' = d
  · subst heq
    simp only [setDomain, update_self]
    refine ⟨fun e he => ?_, hdom.cycle,
      fun ho => ⟨(hdom.ascending ho).marks, (hdom.ascending ho).last⟩⟩
    rcases mem_cons.mp he with rfl | he
    · exact hallowed.2.2.1
    · exact hdom.pending e he
  · simpa only [setDomain, update_of_ne heq] using hdom

/-- The threads wake up, each with all its domains in its queue. -/
theorem InBound.start (h : s.InBound cfg ordered) (hlimit : s.lastLimit ≤ limit) :
    ∃ s', s.start cfg limit = some s' ∧ s'.InWeave cfg ordered := by
  refine ⟨_, if_pos ⟨h.bound, hlimit⟩, rfl, hlimit, fun d hd => ?_, fun thid hthid => ?_⟩
  · have hdom := h.domains d hd
    have hcur := Nat.le_of_eq hdom.cycle
    exact ⟨fun e he => Nat.le_trans hcur (hdom.pending e he), Nat.le_of_eq hdom.cycle.symm, .rfl,
      by simp, fun ho => ⟨Nat.le_trans hcur hlimit,
        ⟨(hdom.ascending ho).marks, (hdom.ascending ho).last⟩⟩⟩
  · simp only [if_pos hthid]
    split
    · next hone => exact (cfg.thDomains_eq thid).symm.trans hone
    · next hmany =>
      rw [Config.thDomains_eq] at hmany
      have hqueued : (Loops.init cfg thid).queued =
          range' (cfg.firstDomain thid) cfg.perThread := by
        rw [Loops.queued, Loops.init, Config.thDomains_eq]
        simp
      have howns : ∀ d, d ∈ (Loops.init cfg thid).queued ↔ cfg.Owns thid d := by
        intro d
        rw [hqueued, mem_range'_1, Config.Owns, Config.supDomain_eq, Config.firstDomain_eq]
      refine ⟨hmany, ?_, fun d => (howns d).mp, ?_, fun d hd hnot => absurd ((howns d).mpr hd) hnot⟩
      · rw [hqueued]
        exact nodup_range'
      · rw [hqueued, length_range']
        rfl

/-- All domains have ended when the threads are done. -/
theorem InWeave.ended (h : s.InWeave cfg ordered)
    (hdone : ∀ thid < cfg.numSimThreads, s.simThreads thid = .done) (hd : d < cfg.numDomains) :
    (s.domains d).Ended cfg s.limit := by
  obtain ⟨thid, hthid, howns⟩ := Config.exists_owner hd
  have hok := h.threads thid hthid
  rw [hdone thid hthid] at hok
  exact hok d howns

theorem InWeave.finish (h : s.InWeave cfg ordered)
    (hdone : ∀ thid < cfg.numSimThreads, s.simThreads thid = .done) :
    ∃ s', s.finish cfg = some s' ∧ s'.InBound cfg ordered := by
  refine ⟨_, if_pos ⟨h.weave, hdone⟩, rfl, fun _ => rfl, fun d hd => ?_⟩
  have hdom := h.domains d hd
  have hend := (h.ended hdone hd).1
  exact ⟨fun e he => hend ▸ hdom.pending e he, hend, fun ho => (hdom.bounded ho).2⟩

/-- What callers may do succeeds, and leads to the same phase or to the next one. -/
theorem step_inv [DecidableEq ι] (op : SimOp ι) (s : ContentionSim ι) (h : s.Inv cfg ordered)
    (hop : Allowed cfg op s ∧ (ordered → Within cfg op s)) :
    ∃ s', step cfg op s = some s' ∧ s'.Inv cfg ordered := by
  obtain ⟨hallowed, hwithin⟩ := hop
  cases op with
  | enqueueSynced d ev cycle =>
    rcases h with h | h
    · obtain ⟨s', hs', h'⟩ := h.enqueueSynced hallowed
      exact ⟨s', hs', .inl h'⟩
    · exact absurd (h.weave.symm.trans hallowed.1) (by simp)
  | start limit =>
    rcases h with h | h
    · obtain ⟨s', hs', h'⟩ := h.start hallowed.2
      exact ⟨s', hs', .inr h'⟩
    · exact absurd (h.weave.symm.trans hallowed.1) (by simp)
  | round thid ch =>
    rcases h with h | h
    · exact absurd (h.asleep thid) hallowed.2.1
    · obtain ⟨s', hs', h'⟩ := h.round hallowed hwithin
      exact ⟨s', hs', .inr h'⟩
  | finish =>
    rcases h with h | h
    · exact absurd (h.bound.symm.trans hallowed.1) (by simp)
    · obtain ⟨s', hs', h'⟩ := h.finish hallowed.2
      exact ⟨s', hs', .inl h'⟩

end

end ContentionSim

end Doppelganger.Weave
