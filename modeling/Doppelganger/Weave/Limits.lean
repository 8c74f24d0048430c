import Doppelganger.Weave.SimThreads

/-! What a phase runs, and what `curCycle` says of the events to come.  The loop over one domain
stops at the limit and the loops over several behind it, so an event at the limit runs in the one
case and stays queued in the other.  An event whose successor is beyond the limit leaves the cycle
of the successor in `curCycle`, until the end of the phase puts the limit there. -/

namespace Doppelganger.Weave

open List Lib ContentionSim

/-- In every phase, whatever its events trigger, the events before the limit run and the others
stay queued, if and only if each thread has one domain or no event of the domain is at the limit. -/
theorem phase_simulates {ι : Type*} [DecidableEq ι] (cfg : Config) (ops : List (SimOp ι))
    (hops : Along (step cfg) (Allowed cfg) (ops ++ [.finish]) init) :
    ∃ s, run (step cfg) (ops ++ [.finish]) init = some s ∧ ∀ d < cfg.numDomains,
      (((s.domains d).ran.Perm ((s.domains d).arrived.filter fun e => e.1 < s.lastLimit) ∧
        (s.domains d).pq.Perm ((s.domains d).arrived.filter fun e => s.lastLimit ≤ e.1)) ↔
      (cfg.perThread = 1 ∨ ∀ e ∈ (s.domains d).arrived, e.1 ≠ s.lastLimit)) := by
  obtain ⟨hops, hlast⟩ := along_append hops
  obtain ⟨s, hrun, hinv⟩ := run_keeps
    (fun op s hs hok => step_inv op s hs ⟨hok, fun hfalse => False.elim hfalse⟩) ops
    (init_inv cfg False) hops
  obtain ⟨hweave, hdone⟩ := (hlast s hrun).1
  have hphase : s.InWeave cfg False := hinv.resolve_left fun h =>
    absurd (h.bound.symm.trans hweave) (by simp)
  refine ⟨{ s with inCSim := false, lastLimit := s.limit, simThreads := fun _ => .asleep }, ?_,
    fun d hd => ?_⟩
  · rw [run_append, hrun]
    simp only [Option.bind_some, run, step, ContentionSim.finish, if_pos (And.intro hweave hdone)]
  have hdom := hphase.domains d hd
  have hend := hphase.ended hdone hd
  by_cases hone : cfg.perThread = 1
  · refine iff_of_true ?_ (.inl hone)
    exact hdom.split hend _ _ (fun e => by simp [Config.runs_single hone])
      fun e => by simp [Config.runs_single hone]
  · have hsplit := hdom.split hend (fun e => e.1 ≤ s.limit) (fun e => s.limit < e.1)
      (fun e => by simp [Config.runs_several hone]) fun e => by simp [Config.runs_several hone]
    rw [or_iff_right hone]
    refine ⟨?_, fun hne => ?_⟩
    · rintro ⟨hran, -⟩ e he heq
      have hmem : e ∈ (s.domains d).ran := hsplit.1.mem_iff.mpr (by simp [he, heq])
      have hlt := hran.mem_iff.mp hmem
      simp [heq] at hlt
    · have hfilter : ∀ e ∈ (s.domains d).arrived, e.1 ≠ s.limit := hne
      constructor
      · refine hsplit.1.trans (.of_eq (filter_congr fun e he => ?_))
        have hne := hfilter e he
        simp only [decide_eq_decide]
        omega
      · refine hsplit.2.trans (.of_eq (filter_congr fun e he => ?_))
        have hne := hfilter e he
        simp only [decide_eq_decide]
        omega

/-- One thread with two domains: an event with an event of its own, one of the other domain, and one
for the next phase. -/
def twoDomains : List (SimOp Nat) :=
  [.enqueueSynced 0 0 5, .enqueueSynced 1 1 7, .start 10, .round 0 ⟨0, (0, 0), [], none⟩,
    .round 0 ⟨0, (5, 0), [(8, 2), (12, 3)], some 1⟩, .round 0 ⟨1, (7, 1), [], none⟩,
    .round 0 ⟨1, (0, 0), [], none⟩, .round 0 ⟨0, (0, 0), [], none⟩,
    .round 0 ⟨0, (8, 2), [], some 0⟩, .round 0 ⟨0, (0, 0), [], none⟩,
    .round 0 ⟨0, (0, 0), [], none⟩, .round 0 ⟨0, (0, 0), [], none⟩,
    .round 0 ⟨0, (0, 0), [], none⟩, .round 0 ⟨0, (0, 0), [], none⟩]

theorem phase_simulates_two :
    ∃ s, run (step ⟨2, 1, 10, by decide, by decide⟩) (twoDomains ++ [.finish]) init = some s ∧
      ∀ d < 2,
      (((s.domains d).ran.Perm ((s.domains d).arrived.filter fun e => e.1 < s.lastLimit) ∧
        (s.domains d).pq.Perm ((s.domains d).arrived.filter fun e => s.lastLimit ≤ e.1)) ↔
      (Config.perThread ⟨2, 1, 10, by decide, by decide⟩ = 1 ∨
        ∀ e ∈ (s.domains d).arrived, e.1 ≠ s.lastLimit)) :=
  phase_simulates ⟨2, 1, 10, by decide, by decide⟩ twoDomains (by decide +kernel)

/-- An event at the limit runs when a thread has two domains, and stays queued when each domain has
a thread. -/
theorem limit_event_runs :
    let one : Config := ⟨2, 1, 10, by decide, by decide⟩
    let two : Config := ⟨2, 2, 10, by decide, by decide⟩
    let ops : List (SimOp Unit) := [.enqueueSynced 0 () 10, .start 10,
      .round 0 ⟨0, (0, ()), [], none⟩, .round 0 ⟨0, (10, ()), [], none⟩,
      .round 0 ⟨1, (0, ()), [], none⟩, .round 0 ⟨0, (0, ()), [], none⟩,
      .round 0 ⟨0, (0, ()), [], none⟩, .round 0 ⟨0, (0, ()), [], none⟩,
      .round 0 ⟨0, (0, ()), [], none⟩, .finish]
    let ops' : List (SimOp Unit) := [.enqueueSynced 0 () 10, .start 10,
      .round 0 ⟨0, (0, ()), [], none⟩, .round 1 ⟨0, (0, ()), [], none⟩, .finish]
    (Along (step one) (Allowed one) ops init ∧ ∃ s, run (step one) ops init = some s ∧
      s.lastLimit = 10 ∧ (s.domains 0).ran = [(10, ())] ∧
      ¬(s.domains 0).ran.Perm ((s.domains 0).arrived.filter fun e => e.1 < s.lastLimit)) ∧
    (Along (step two) (Allowed two) ops' init ∧ ∃ s, run (step two) ops' init = some s ∧
      s.lastLimit = 10 ∧ (s.domains 0).ran = [] ∧ (s.domains 0).pq = [(10, ())]) := by
  refine ⟨⟨by decide +kernel, _, rfl, rfl, rfl, by decide +kernel⟩,
    by decide +kernel, _, rfl, rfl, rfl, rfl⟩

/-- As long as each event leaves the queue of its domain empty or with an event up to the limit,
each value of `curCycle` is a lower bound for the later ones and for the events that run later, in
all phases. -/
theorem curCycle_ascends {ι : Type*} [DecidableEq ι] (cfg : Config) (ops : List (SimOp ι))
    (hops : Along (step cfg) (fun op s => Allowed cfg op s ∧ Within cfg op s) ops init) :
    ∃ s, run (step cfg) ops init = some s ∧ ∀ d < cfg.numDomains,
      (s.domains d).marks.Pairwise Mark.Follows ∧
      ∀ v, .stored v ∈ (s.domains d).marks → v ≤ (s.domains d).curCycle := by
  obtain ⟨s, hrun, hinv⟩ := run_keeps
    (fun op s hs hok => step_inv op s hs ⟨hok.1, fun _ => hok.2⟩) ops (init_inv cfg True) hops
  refine ⟨s, hrun, fun d hd => ?_⟩
  have hasc : (s.domains d).Ascending := by
    rcases hinv with h | h
    · exact (h.domains d hd).ascending trivial
    · exact ((h.domains d hd).bounded trivial).2
  exact ⟨hasc.marks, hasc.last⟩

/-- Two phases of a domain: no event is followed by one beyond the limit. -/
theorem curCycle_ascends_phases :
    ∃ s, run (step ⟨1, 1, 100, by decide, by decide⟩)
        [.enqueueSynced 0 0 5, .enqueueSynced 0 1 90, .start 100,
          .round 0 ⟨0, (5, 0), [(5, 2)], none⟩, .round 0 ⟨0, (5, 2), [], none⟩,
          .round 0 ⟨0, (90, 1), [], none⟩, .round 0 ⟨0, (0, 0), [], none⟩, .finish,
          .enqueueSynced 0 0 120, .start 200, .round 0 ⟨0, (120, 0), [], none⟩] init = some s ∧
      ∀ d < 1, (s.domains d).marks.Pairwise Mark.Follows ∧
      ∀ v, .stored v ∈ (s.domains d).marks → v ≤ (s.domains d).curCycle :=
  curCycle_ascends ⟨1, 1, 100, by decide, by decide⟩ _ (by decide +kernel)

/-- The second event of a phase is beyond its limit, and leaves 150 in `curCycle`; in the next phase
an event runs at 120. -/
theorem curCycle_drops :
    let cfg : Config := ⟨1, 1, 100, by decide, by decide⟩
    let ops : List (SimOp Nat) := [.enqueueSynced 0 0 5, .enqueueSynced 0 1 150, .start 100,
      .round 0 ⟨0, (5, 0), [], none⟩, .round 0 ⟨0, (0, 0), [], none⟩, .finish,
      .enqueueSynced 0 2 120, .start 200, .round 0 ⟨0, (120, 2), [], none⟩]
    Along (step cfg) (Allowed cfg) ops init ∧ ∃ s, run (step cfg) ops init = some s ∧
      [.simulated 120, .stored 120, .stored 100, .stored 150] <+ (s.domains 0).marks ∧
      ¬(s.domains 0).marks.Pairwise Mark.Follows :=
  ⟨by decide +kernel, _, rfl, by decide +kernel, by decide +kernel⟩

end Doppelganger.Weave
