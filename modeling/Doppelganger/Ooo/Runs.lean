import Doppelganger.Ooo.Skew

/-! Runs of the recorder.  Delays of events have 32 bits: in a run where events follow each other
closely enough for them, no assertion fails, and the clock only goes forward. -/

namespace Doppelganger.Ooo

open Lib Recorder

variable {s s' : Recorder} {op : Op} {phaseLength : Nat}

/-- A new issue event is less than `2^32` cycles after the last one, and the events of a GET follow
each other in less than `2^32` cycles. -/
def Close (phaseLength : Nat) : Op → Recorder → Prop
  | .join curCycle, s => s.state = .DRAINING → s.Near curCycle
  | .leave curCycle, s => s.Near curCycle
  | .get curCycle dispatchCycle reqCycle trRespCycle respCycle, s =>
    s.Near curCycle ∧ Prompt curCycle dispatchCycle reqCycle trRespCycle respCycle
  | .cSimStart _, s => s.state = .RUNNING → s.Near (s.nextPhaseCycle phaseLength)
  | _, _ => True

theorem step_inv (hpos : 0 < phaseLength) (h : Inv phaseLength s) (hen : Enabled phaseLength op s)
    (hclose : Close phaseLength op s) :
    ∃ s', step phaseLength op s = some s' ∧ Inv phaseLength s' := by
  cases op with
  | join curCycle =>
    obtain ⟨hbound, hstate, rfl⟩ := hen
    exact h.join hbound hstate hclose
  | leave curCycle => exact h.leave hen.1 hen.2.1 hen.2.2 hclose
  | get curCycle dispatchCycle reqCycle trRespCycle respCycle =>
    obtain ⟨hbound, hs, hcur, hdisp, hreq, htr, hresp⟩ := hen
    exact h.get hbound hs hcur hdisp hreq htr hresp hclose.1 hclose.2
  | put curCycle => exact h.put hen.1 hen.2.1 hen.2.2
  | cSimStart curCycle => exact h.cSimStart hpos hen.1 hen.2.1 hen.2.2 hclose
  | issue i =>
    obtain ⟨hweave, hi, hstart, t, ht, hlate⟩ := hen
    exact ⟨_, h.issue hweave hi hstart ht hlate⟩
  | resp extra r =>
    obtain ⟨hweave, hr, -, t, ht, -⟩ := hen
    exact ⟨_, h.resp hweave hr ht⟩
  | cSimEnd =>
    obtain ⟨s', hs', hinv, -⟩ := h.cSimEnd hpos hen.1 hen.2
    exact ⟨s', hs', hinv⟩

/-! ### Runs without contention -/

/-- No event outside the recorder adds delay. -/
def Op.Uncontended : Op → Prop
  | .resp extra _ => extra = 0
  | _ => True

/-- Every event that was simulated started at its `zllStartCycle`. -/
structure Exact (s : Recorder) : Prop where
  gap : s.gapCycles = 0
  issues : ∀ i < s.numIssues, ∀ t, (s.issues i).start = some t → t = (s.issues i).zllStartCycle
  resps : ∀ r < s.numResps, ∀ t, (s.resps r).start = some t → t = (s.resps r).zllStartCycle

theorem init_exact : Exact init where
  gap := rfl
  issues := fun i hi => absurd hi (Nat.not_lt_zero i)
  resps := fun r hr => absurd hr (Nat.not_lt_zero r)

/-- A new issue event was not simulated. -/
theorem Exact.push_issue (h : Exact s) {ev : IssueEvent} (hstart : ev.start = none)
    (hgap : s'.gapCycles = 0) (hissues : s'.issues = Function.update s.issues s.numIssues ev)
    (hnum : s'.numIssues = s.numIssues + 1) (hresps : s'.resps = s.resps)
    (hnumResps : s'.numResps = s.numResps) : Exact s' where
  gap := hgap
  issues := by
    rw [hissues, hnum]
    intro i hi t ht
    obtain hi | rfl := Nat.lt_succ_iff_lt_or_eq.mp hi
    · rw [Function.update_of_ne (Nat.ne_of_lt hi)] at ht ⊢
      exact h.issues i hi t ht
    · rw [Function.update_self, hstart] at ht
      cases ht
  resps := by
    rw [hresps, hnumResps]
    exact h.resps

theorem Exact.clock (h : Exact s) (hgap : s'.gapCycles = 0) (hissues : s'.issues = s.issues)
    (hnum : s'.numIssues = s.numIssues) (hresps : s'.resps = s.resps)
    (hnumResps : s'.numResps = s.numResps) : Exact s' where
  gap := hgap
  issues := by
    rw [hissues, hnum]
    exact h.issues
  resps := by
    rw [hresps, hnumResps]
    exact h.resps

theorem Exact.at (h : Exact s) (curCycle : Nat) (state : State) (inWeave : Bool) :
    Exact { s with curCycle := curCycle, state := state, inWeave := inWeave } :=
  ⟨h.gap, h.issues, h.resps⟩

theorem Exact.add (h : Exact s) {evCycle : Nat} (hadd : s.addIssueEvent evCycle = some s') :
    Exact s' := by
  unfold addIssueEvent at hadd
  obtain ⟨last, -, hadd⟩ := Option.bind_eq_some_iff.mp hadd
  dsimp only at hadd
  split at hadd
  case isFalse => cases hadd
  obtain ⟨⟨linked, maxCycle, rest⟩, -, hadd⟩ := Option.bind_eq_some_iff.mp hadd
  dsimp only at hadd
  split at hadd
  case isFalse => cases hadd
  cases hadd
  exact h.push_issue rfl h.gap rfl rfl rfl rfl

/-! ### The starts of events without contention -/

theorem mem_of_allStarts {starts : List (Option Nat)} {ts : List Nat} {t : Nat}
    (h : allStarts starts = some ts) (ht : t ∈ ts) : some t ∈ starts := by
  induction starts generalizing ts with
  | nil =>
    cases h
    exact absurd ht List.not_mem_nil
  | cons start starts ih =>
    unfold allStarts at h
    rw [List.mapM_cons] at h
    obtain ⟨u, hu, h⟩ := Option.bind_eq_some_iff.mp h
    obtain ⟨us, hus, h⟩ := Option.bind_eq_some_iff.mp h
    cases h
    obtain rfl | ht := List.mem_cons.mp ht
    · exact List.mem_cons.mpr (.inl hu.symm)
    · exact List.mem_cons_of_mem _ (ih hus ht)

theorem Exact.issueStart_eq (h : Exact s) {i t : Nat} (hi : i < s.numIssues)
    (hlinked : s.Linked i) (hroot : (s.issues i).prev = none → t = (s.issues i).zllStartCycle)
    (ht : s.issueStart i = some t) : t = (s.issues i).zllStartCycle := by
  cases hprev : (s.issues i).prev with
  | none => exact hroot hprev
  | some p =>
    obtain ⟨u, ts, hu, hts, rfl⟩ := issueStart_spec hprev ht
    obtain ⟨hlt, hdelays⟩ := hlinked.next p hprev
    obtain rfl := h.issues p (Nat.lt_trans hlt hi) u hu
    have hmax : ts.foldl max ((s.issues p).zllStartCycle + (s.issues i).issueDelay) ≤
        (s.issues p).zllStartCycle + (s.issues i).issueDelay := by
      refine foldl_max_le (Nat.le_refl _) fun t ht => ?_
      obtain ⟨r, hr, hstart⟩ := List.mem_map.mp (mem_of_allStarts hts ht)
      obtain ⟨hknown, hle⟩ := hlinked.resps r hr
      obtain rfl := h.resps r hknown t hstart
      omega
    have hge := le_foldl_max ((s.issues p).zllStartCycle + (s.issues i).issueDelay) ts
    omega

theorem Exact.respStart_eq (h : Exact s) {r t : Nat} (hwired : s.Wired r)
    (ht : s.respStart 0 r = some t) : t = (s.resps r).zllStartCycle := by
  obtain ⟨u, ts, hu, hts, rfl⟩ := respStart_spec ht
  obtain rfl := h.issues _ hwired.issue u hu
  have hzll := hwired.zll
  have hmax : ts.foldl max
      ((s.issues (s.resps r).issue).zllStartCycle + (s.resps r).dispDelay) ≤
        (s.issues (s.resps r).issue).zllStartCycle + (s.resps r).dispDelay := by
    refine foldl_max_le (Nat.le_refl _) fun t ht => ?_
    obtain ⟨p, hp, hstart⟩ := List.mem_map.mp (mem_of_allStarts hts ht)
    obtain ⟨hknown, heq⟩ := hwired.resps p hp
    obtain ⟨v, hv, rfl⟩ := Option.map_eq_some_iff.mp hstart
    obtain rfl := h.resps p.1 hknown v hv
    exact Nat.le_of_eq heq
  have hge := le_foldl_max
    ((s.issues (s.resps r).issue).zllStartCycle + (s.resps r).dispDelay) ts
  omega

/-- Without contention, the skew is zero. -/
theorem Exact.skew_zero (h : Exact s) (hinv : Inv phaseLength s) (hpos : 0 < phaseLength)
    (hen : Enabled phaseLength .cSimEnd s) (hstate : s.state ≠ .HALTED) : s.skew = 0 := by
  obtain ⟨c, k, hck, hchain, -⟩ := hinv.skew_ok hpos hen.1 hen.2 hstate
  obtain ⟨hzll, hstart, -⟩ := hchain.last hck
  have htop := hchain.top
  have heq := h.issues (k - 1) (by omega) _ hstart
  unfold skew
  omega

theorem Exact.get (h : Exact s) {curCycle dispatchCycle reqCycle trRespCycle respCycle : Nat}
    (hget : s.recordGet curCycle dispatchCycle reqCycle trRespCycle respCycle = some s') :
    Exact s' := by
  obtain ⟨s1, hadd, hrest⟩ := Option.bind_eq_some_iff.mp hget
  have h1 := (h.at curCycle s.state s.inWeave).add hadd
  dsimp only at hrest
  split at hrest
  case isFalse => cases hrest
  cases hrest
  refine ⟨h1.gap, h1.issues, fun r hr t ht => ?_⟩
  dsimp only at ht ⊢
  obtain hr | rfl := Nat.lt_succ_iff_lt_or_eq.mp hr
  · rw [Function.update_of_ne (Nat.ne_of_lt hr)] at ht ⊢
    exact h1.resps r hr t ht
  · rw [Function.update_self] at ht
    cases ht

theorem Exact.cSimStart (h : Exact s) {curCycle : Nat}
    (hstart : s.cSimStart phaseLength curCycle = some s') : Exact s' := by
  unfold Recorder.cSimStart at hstart
  dsimp only at hstart
  split at hstart
  case h_1 =>
    cases hstart
    exact h.clock h.gap rfl rfl rfl rfl
  case h_2 =>
    obtain ⟨last, -, hstart⟩ := Option.bind_eq_some_iff.mp hstart
    split at hstart
    case isFalse => cases hstart
    split at hstart
    · exact (h.at curCycle s.state true).add hstart
    · cases hstart
      exact h.at curCycle s.state true
  case h_3 =>
    cases hstart
    exact h.clock h.gap rfl rfl rfl rfl

theorem Exact.issue (h : Exact s) {i t : Nat} (ht : t = (s.issues i).zllStartCycle) :
    Exact (s.simulated i t) := by
  refine ⟨h.gap, fun j hj u hu => ?_, h.resps⟩
  unfold simulated at hu ⊢
  dsimp only at hu ⊢
  by_cases hji : j = i
  · subst hji
    rw [Function.update_self] at hu ⊢
    cases hu
    exact ht
  · rw [Function.update_of_ne hji] at hu ⊢
    exact h.issues j hj u hu

theorem Exact.resp (h : Exact s) {r t : Nat} (ht : t = (s.resps r).zllStartCycle) :
    Exact (s.answered r t) := by
  refine ⟨h.gap, h.issues, fun q hq u hu => ?_⟩
  unfold answered at hu ⊢
  dsimp only at hu ⊢
  by_cases hqr : q = r
  · subst hqr
    rw [Function.update_self] at hu ⊢
    cases hu
    exact ht
  · rw [Function.update_of_ne hqr] at hu ⊢
    exact h.resps q hq u hu

theorem Exact.step (h : Exact s) (hinv : Inv phaseLength s) (hpos : 0 < phaseLength)
    (hen : Enabled phaseLength op s) (hfree : op.Uncontended)
    (hstep : step phaseLength op s = some s') : Exact s' := by
  cases op with
  | join curCycle =>
    unfold Ooo.step notifyJoin at hstep
    dsimp only at hstep
    split at hstep
    case h_1 =>
      split at hstep
      case isFalse => cases hstep
      cases hstep
      exact h.push_issue rfl rfl rfl rfl rfl rfl
    case h_2 =>
      split at hstep
      case isFalse => cases hstep
      exact (h.at curCycle .RUNNING s.inWeave).add hstep
    case h_3 => cases hstep
  | leave curCycle =>
    unfold Ooo.step notifyLeave at hstep
    dsimp only at hstep
    split at hstep
    case isFalse => cases hstep
    exact (h.at curCycle .DRAINING s.inWeave).add hstep
  | get curCycle dispatchCycle reqCycle trRespCycle respCycle => exact h.get hstep
  | put curCycle =>
    obtain ⟨last, -, hstep⟩ := Option.bind_eq_some_iff.mp hstep
    split at hstep
    case isFalse => cases hstep
    cases hstep
    exact h.at curCycle s.state s.inWeave
  | cSimStart curCycle => exact h.cSimStart hstep
  | issue i =>
    obtain ⟨hweave, hi, hstart, t, ht, hlate⟩ := hen
    have heq := (hinv.issue hweave hi hstart ht hlate).1
    cases heq.symm.trans hstep
    obtain ⟨c, k, hchain⟩ := hinv.chain fun hhalted => (hinv.halted hhalted).2.2.1 i hi hstart
    obtain rfl := hchain.next_eq hi hstart ht
    have hlinked := hinv.core.linked i hi
    exact h.issue (h.issueStart_eq hi hlinked (hchain.start_ge hlinked hi ht).2.1 ht)
  | resp extra r =>
    obtain ⟨hweave, hr, -, t, ht, -⟩ := hen
    cases (hinv.resp hweave hr ht).1.symm.trans hstep
    obtain rfl : extra = 0 := hfree
    exact h.resp (h.respStart_eq (hinv.core.wired r hr) ht)
  | cSimEnd =>
    obtain ⟨s1, hs1, -, hissues, hnumIssues, hresps, hnumResps, -, hgap⟩ :=
      hinv.cSimEnd hpos hen.1 hen.2
    cases hs1.symm.trans hstep
    refine h.clock ?_ hissues hnumIssues hresps hnumResps
    rw [hgap]
    split
    case isTrue => exact h.gap
    case isFalse hstate => rw [h.gap, h.skew_zero hinv hpos hen hstate]

theorem uncontended_exact (hpos : 0 < phaseLength) {ops : List Op}
    (hops : Along (step phaseLength) (fun op s => Enabled phaseLength op s ∧ Close phaseLength op s)
      ops init) (hfree : ∀ op ∈ ops, op.Uncontended)
    (hrun : run (step phaseLength) ops init = some s) : Exact s := by
  have keeps : ∀ op s s', Inv phaseLength s ∧ Exact s →
      (Enabled phaseLength op s ∧ Close phaseLength op s) ∧ op.Uncontended →
      step phaseLength op s = some s' → Inv phaseLength s' ∧ Exact s' := by
    rintro op s s' ⟨hinv, hexact⟩ ⟨⟨hen, hclose⟩, hfree⟩ hstep
    obtain ⟨s1, hs1, hinv'⟩ := step_inv hpos hinv hen hclose
    cases hs1.symm.trans hstep
    exact ⟨hinv', hexact.step hinv hpos hen hfree hstep⟩
  have hboth := run_preserves keeps ⟨init_inv phaseLength, init_exact⟩
    (along_and hops (along_of_mem hfree init)) hrun
  exact hboth.2

/-- In every run whose events are close enough to each other, no assertion fails; the delays between
an issue event and the one before it are the difference of their `zllStartCycle`, and the difference
between the start of an event and its `zllStartCycle` does not decrease from one to the next;
`cSimEnd` keeps `curCycle - gapCycles`, and changes neither when nothing outside the recorder added
delay. -/
theorem skew_nonneg (hpos : 0 < phaseLength) {ops : List Op}
    (hops : Along (step phaseLength) (fun op s => Enabled phaseLength op s ∧ Close phaseLength op s)
      ops init) :
    ∃ s, run (step phaseLength) ops init = some s ∧
      (∀ i < s.numIssues, ∀ p, (s.issues i).prev = some p → p < i ∧
        (s.issues p).zllStartCycle + (s.issues i).issueDelay + (s.issues i).preDelay =
          (s.issues i).zllStartCycle ∧
        ∀ t, (s.issues i).start = some t → ∃ u, (s.issues p).start = some u ∧
          (u : Int) - (s.issues p).zllStartCycle ≤ t - (s.issues i).zllStartCycle) ∧
      (Enabled phaseLength .cSimEnd s → ∃ s', s.cSimEnd phaseLength = some s' ∧
        (s'.curCycle : Int) - s'.gapCycles = s.curCycle - s.gapCycles ∧
        ((∀ op ∈ ops, op.Uncontended) →
          s'.curCycle = s.curCycle ∧ s'.gapCycles = s.gapCycles)) := by
  obtain ⟨s, hrun, hinv⟩ := run_keeps (fun op s h hok => step_inv hpos h hok.1 hok.2) ops
    (init_inv phaseLength) hops
  refine ⟨s, hrun, fun i hi p hprev => ?_, fun hen => ?_⟩
  · have hlinked := hinv.core.linked i hi
    obtain ⟨hlt, hdelays⟩ := hlinked.next p hprev
    refine ⟨hlt, hdelays, fun t ht => ?_⟩
    obtain ⟨u, hu, hle⟩ := hlinked.delayed p t hprev ht
    exact ⟨u, hu, by omega⟩
  · obtain ⟨s', hs', -, -, -, -, -, hclock, hgap⟩ := hinv.cSimEnd hpos hen.1 hen.2
    refine ⟨s', hs', by omega, fun hfree => ?_⟩
    have hexact : Exact s := uncontended_exact hpos hops hfree hrun
    have hgap' : s'.gapCycles = s.gapCycles := by
      rw [hgap]
      split
      case isTrue => rfl
      case isFalse hstate => rw [hexact.skew_zero hinv hpos hen hstate, Nat.add_zero]
    exact ⟨by omega, hgap'⟩

/-! ### Runs that can be checked -/

instance decidableExistsSome {o : Option Nat} {n : Nat} : Decidable (∃ t, o = some t ∧ t < n) :=
  decidable_of_iff (∃ t ∈ o, t < n) Iff.rfl

instance decidableForallSome {o : Option Nat} {n : Nat} : Decidable (∀ t, o = some t → n ≤ t) :=
  decidable_of_iff (∀ t ∈ o, n ≤ t) Iff.rfl

instance decidableNear {evCycle : Nat} : Decidable (s.Near evCycle) :=
  decidable_of_iff (∀ last ∈ s.lastEvProduced,
    evCycle - s.gapCycles < (s.issues last).zllStartCycle + 2 ^ 32) Iff.rfl

instance decidablePrompt {curCycle dispatchCycle reqCycle trRespCycle respCycle : Nat} :
    Decidable (Prompt curCycle dispatchCycle reqCycle trRespCycle respCycle) :=
  decidable_of_iff (dispatchCycle < curCycle + 2 ^ 32 ∧ reqCycle < dispatchCycle + 2 ^ 32 ∧
    respCycle < trRespCycle + 2 ^ 32) ⟨fun h => ⟨h.1, h.2.1, h.2.2⟩, fun h => ⟨h.1, h.2, h.3⟩⟩

instance decidableEnabled : ∀ (op : Op) (s : Recorder), Decidable (Enabled phaseLength op s)
  | .join _, _ => inferInstanceAs (Decidable (_ ∧ _ ∧ _))
  | .leave _, _ => inferInstanceAs (Decidable (_ ∧ _ ∧ _))
  | .get _ _ _ _ _, _ => inferInstanceAs (Decidable (_ ∧ _ ∧ _ ∧ _ ∧ _ ∧ _ ∧ _))
  | .put _, _ => inferInstanceAs (Decidable (_ ∧ _ ∧ _))
  | .cSimStart _, _ => inferInstanceAs (Decidable (_ ∧ _ ∧ (_ → _)))
  | .issue _, _ => inferInstanceAs (Decidable (_ ∧ _ ∧ _ ∧ ∃ _, _))
  | .resp _ _, _ => inferInstanceAs (Decidable (_ ∧ _ ∧ _ ∧ ∃ _, _))
  | .cSimEnd, _ => inferInstanceAs (Decidable (_ ∧ ∀ _ < _, _ → _))

instance decidableClose : ∀ (op : Op) (s : Recorder), Decidable (Close phaseLength op s)
  | .join _, _ => inferInstanceAs (Decidable (_ → _))
  | .leave _, _ => inferInstanceAs (Decidable (Near _ _))
  | .get _ _ _ _ _, _ => inferInstanceAs (Decidable (_ ∧ _))
  | .put _, _ => inferInstanceAs (Decidable True)
  | .cSimStart _, _ => inferInstanceAs (Decidable (_ → _))
  | .issue _, _ => inferInstanceAs (Decidable True)
  | .resp _ _, _ => inferInstanceAs (Decidable True)
  | .cSimEnd, _ => inferInstanceAs (Decidable True)

/-- A core that sends a request and leaves, and joins again when the request is still outstanding,
`3 * 2 ^ 31` cycles later. -/
def lateJoin : List Op :=
  let phaseLength := 2 ^ 31
  [.join 0, .get 10 10 10 20 20, .leave 30, .cSimStart 30, .issue 0, .issue 1, .cSimEnd,
    .cSimStart phaseLength, .cSimEnd, .cSimStart (2 * phaseLength), .cSimEnd,
    .join (3 * phaseLength), .cSimStart (4 * phaseLength + 1), .resp (4 * phaseLength - 100) 0,
    .issue 2, .cSimEnd, .cSimStart (8 * phaseLength - 99), .issue 3]

/-- The delay to the event of the second join does not have 32 bits, so that event starts earlier,
relative to its `zllStartCycle`, than the one before it, and the skew is negative. -/
theorem negative_skew :
    Along (step (2 ^ 31)) (Enabled (2 ^ 31)) (lateJoin ++ [.cSimEnd]) init ∧
    ((run (step (2 ^ 31)) lateJoin init).any fun s =>
      s.lastEvSimulatedStartCycle < s.lastEvSimulatedZllStartCycle + s.gapCycles) = true ∧
    run (step (2 ^ 31)) (lateJoin ++ [.cSimEnd]) init = none := by
  decide +kernel

/-- An access takes 30 cycles more than was expected, and so the second phase has a skew of 30. -/
def delayedAccess : List Op :=
  [.join 0, .get 10 12 15 40 45, .cSimStart 120, .issue 0, .issue 1, .resp 30 0, .cSimEnd,
    .cSimStart 250, .issue 2]

theorem skew_nonneg_delayedAccess :
    (∃ s, run (step 100) delayedAccess init = some s ∧ ∃ s', s.cSimEnd 100 = some s' ∧
      (s'.curCycle : Int) - s'.gapCycles = s.curCycle - s.gapCycles) ∧
    (run (step 100) (delayedAccess ++ [.cSimEnd]) init).map (·.gapCycles) = some 30 := by
  refine ⟨?_, by decide +kernel⟩
  obtain ⟨s, hrun, -, hend⟩ := skew_nonneg (by decide) (by decide +kernel :
    Along (step 100) (fun op s => Enabled 100 op s ∧ Close 100 op s) delayedAccess init)
  have hen : (run (step 100) delayedAccess init).all (Enabled 100 .cSimEnd ·) = true := by
    decide +kernel
  rw [hrun] at hen
  obtain ⟨s', hs', hclock, -⟩ := hend (of_decide_eq_true hen)
  exact ⟨s, hrun, s', hs', hclock⟩

end Doppelganger.Ooo
