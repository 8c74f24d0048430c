import Doppelganger.Ooo.Phases

/-! The steps of the weave phase.  The skew that `cSimEnd` computes is how much later the last event
that was simulated is, relative to its `zllStartCycle`, than at the end of the phase before. -/

namespace Doppelganger.Ooo

namespace Recorder

variable {s s' : Recorder} {c k i j p r curCycle extra : Nat} {phaseLength : Nat}

/-! ### The start of a weave phase -/

/-- A halted core waits. -/
theorem Inv.cSimStart_halted (h : Inv phaseLength s) (hs : s.state = .HALTED)
    (hlast : s.lastEvSimulatedStartCycle < s.nextPhaseCycle phaseLength) :
    ∃ s', s.cSimStart phaseLength curCycle = some s' ∧ Inv phaseLength s' := by
  unfold Recorder.cSimStart
  rw [hs]
  refine ⟨_, rfl, ?_⟩
  constructor
  case core =>
    exact h.core.of_eq rfl rfl rfl rfl h.core.gap ⟨h.core.pending.sorted, h.core.pending.known⟩
  case chain => exact fun hstate => absurd rfl hstate
  case halted => exact fun _ => h.halted hs
  case bound =>
    intro hweave
    cases hweave
  case weave => exact fun _ => ⟨hlast, fun hstate => absurd rfl hstate⟩

/-- A core that drains forgets the responses that are to come. -/
theorem Inv.cSimStart_draining (h : Inv phaseLength s) (hs : s.state = .DRAINING)
    (hlast : s.lastEvSimulatedStartCycle < s.nextPhaseCycle phaseLength)
    (hcur : s.curCycle ≤ curCycle) :
    ∃ s', s.cSimStart phaseLength curCycle = some s' ∧ Inv phaseLength s' := by
  obtain ⟨c, k, hchain⟩ := h.chain (by rw [hs]; decide)
  unfold Recorder.cSimStart
  rw [hs]
  refine ⟨_, rfl, ?_⟩
  constructor
  case core =>
    refine h.core.of_eq rfl rfl rfl rfl h.core.gap ⟨.nil, ?_⟩
    exact fun fr hfr => absurd hfr List.not_mem_nil
  case chain =>
    exact fun _ => ⟨c, k, hchain.congr rfl rfl rfl rfl rfl rfl rfl
      (hchain.zll_le (Nat.le_trans hcur (Nat.le_max_left _ _)))⟩
  case halted =>
    intro hhalted
    cases hhalted
  case bound =>
    intro hweave
    cases hweave
  case weave =>
    refine fun _ => ⟨hlast, fun _ => ⟨Nat.le_max_right _ _, fun hrun => ?_, fun _ => rfl⟩⟩
    cases hrun

/-- A core that runs gets an event at the end of the phase, unless its last one is late enough. -/
theorem Inv.cSimStart_running (h : Inv phaseLength s) (hs : s.state = .RUNNING)
    (hbound : s.inWeave = false)
    (hlast : s.lastEvSimulatedStartCycle < s.nextPhaseCycle phaseLength)
    (hcur : s.curCycle ≤ curCycle) (hnext : s.nextPhaseCycle phaseLength < curCycle)
    (hnear : s.Near (s.nextPhaseCycle phaseLength)) :
    ∃ s', s.cSimStart phaseLength curCycle = some s' ∧ Inv phaseLength s' := by
  have hstate : s.state ≠ .HALTED := by
    rw [hs]
    decide
  obtain ⟨c, k, hchain⟩ := h.chain hstate
  obtain ⟨hglob, hsome, hclear⟩ := (h.bound hbound).2 hstate
  obtain ⟨hlt, hproduced⟩ := hchain.produced_eq hsome
  have hzll := hchain.zll_le hcur
  have hgap := h.core.gap
  have hgapNext : s.gapCycles ≤ s.nextPhaseCycle phaseLength :=
    Nat.le_trans hgap (Nat.le_add_right _ _)
  suffices hs' : ∃ s', (if (s.issues (s.numIssues - 1)).zllStartCycle <
      s.nextPhaseCycle phaseLength - s.gapCycles then
        addIssueEvent { s with curCycle := curCycle, state := .RUNNING, inWeave := true }
          (s.nextPhaseCycle phaseLength)
      else some { s with curCycle := curCycle, state := .RUNNING, inWeave := true }) = some s' ∧
      Inv phaseLength s' by
    obtain ⟨s', heq, hinv⟩ := hs'
    unfold Recorder.cSimStart
    rw [hs]
    exact ⟨s', Option.bind_eq_some_iff.mpr ⟨_, hproduced,
      (if_pos ⟨hnext, Nat.le_sub_of_add_le hzll⟩).trans (hs ▸ heq)⟩, hinv⟩
  split
  case isTrue hearly =>
    have hge : (s.issues (s.numIssues - 1)).zllStartCycle + s.gapCycles ≤
        s.nextPhaseCycle phaseLength := by omega
    obtain ⟨s', ev, rest, hadd, q, hcore, hchain'⟩ := h.core.add hchain hsome hclear hge
      (Nat.le_of_lt hnext) hnear .RUNNING true
    refine ⟨s', hadd, ?_⟩
    constructor
    case core => exact hcore
    case chain => exact fun _ => ⟨c, k, hchain'⟩
    case halted =>
      intro hhalted
      rw [q.eq] at hhalted
      cases hhalted
    case bound =>
      intro hweave
      rw [q.eq] at hweave
      cases hweave
    case weave =>
      have hnew := q.zll
      rw [q.last_eq, hnew, q.eq]
      refine fun _ => ⟨hlast, fun _ => ⟨Nat.le_of_lt hnext, fun _ => ?_, fun hdrain => ?_⟩⟩
      · exact Nat.le_of_eq (Nat.sub_add_cancel hgapNext).symm
      · cases hdrain
  case isFalse hlate =>
    refine ⟨_, rfl, ?_⟩
    constructor
    case core =>
      exact h.core.of_eq rfl rfl rfl rfl hgap ⟨h.core.pending.sorted, h.core.pending.known⟩
    case chain =>
      exact fun _ => ⟨c, k, hchain.congr rfl rfl rfl rfl rfl rfl rfl hzll⟩
    case halted =>
      intro hhalted
      cases hhalted
    case bound =>
      intro hweave
      cases hweave
    case weave =>
      refine fun _ => ⟨hlast, fun _ => ⟨Nat.le_of_lt hnext, fun _ => ?_, fun hdrain => ?_⟩⟩
      · show s.nextPhaseCycle phaseLength ≤ _
        dsimp only
        omega
      · cases hdrain

theorem Inv.cSimStart (h : Inv phaseLength s) (hpos : 0 < phaseLength) (hbound : s.inWeave = false)
    (hcur : s.curCycle ≤ curCycle)
    (hnext : s.state = .RUNNING → s.nextPhaseCycle phaseLength < curCycle)
    (hnear : s.state = .RUNNING → s.Near (s.nextPhaseCycle phaseLength)) :
    ∃ s', s.cSimStart phaseLength curCycle = some s' ∧ Inv phaseLength s' := by
  obtain ⟨hbefore, -⟩ := h.bound hbound
  have hlast : s.lastEvSimulatedStartCycle < s.nextPhaseCycle phaseLength := by
    unfold nextPhaseCycle
    omega
  cases hs : s.state with
  | HALTED => exact h.cSimStart_halted hs hlast
  | DRAINING => exact h.cSimStart_draining hs hlast hcur
  | RUNNING => exact h.cSimStart_running hs hbound hlast hcur (hnext hs) (hnear hs)

/-! ### Simulating an event -/

theorem le_foldl_max (m : Nat) (ts : List Nat) : m ≤ ts.foldl max m := by
  induction ts generalizing m with
  | nil => exact Nat.le_refl m
  | cons t ts ih => exact Nat.le_trans (Nat.le_max_left m t) (ih (max m t))

theorem foldl_max_le {m b : Nat} {ts : List Nat} (hm : m ≤ b) (hts : ∀ t ∈ ts, t ≤ b) :
    ts.foldl max m ≤ b := by
  induction ts generalizing m with
  | nil => exact hm
  | cons t ts ih =>
    exact ih (Nat.max_le.mpr ⟨hm, hts t List.mem_cons_self⟩) fun t' ht' =>
      hts t' (List.mem_cons_of_mem _ ht')

/-- The event that starts next is the first one of the chain that did not. -/
theorem Chain.next_eq (h : s.Chain c k) (hi : i < s.numIssues) (hstart : (s.issues i).start = none)
    {t : Nat} (ht : s.issueStart i = some t) : i = k := by
  have hki : k ≤ i := by
    by_contra hik
    exact h.ran i (Nat.lt_of_not_le hik) hstart
  obtain rfl | hci := Nat.eq_or_lt_of_le (Nat.le_trans h.le hki)
  · exact Nat.le_antisymm h.le hki
  · have hprev := h.prev i hci hi
    unfold issueStart at ht
    simp only [hprev] at ht
    obtain ⟨u, hu, -⟩ := Option.bind_eq_some_iff.mp ht
    refine Nat.le_antisymm ?_ hki
    by_contra hlt
    have hnone := h.waits (i - 1) (by omega) (by omega)
    rw [hnone] at hu
    cases hu

/-- The start of an event, and of the one before it. -/
theorem issueStart_spec {t : Nat} (hprev : (s.issues i).prev = some p)
    (ht : s.issueStart i = some t) :
    ∃ u ts, (s.issues p).start = some u ∧
      allStarts ((s.issues i).resps.map fun r => (s.resps r).start) = some ts ∧
      t = ts.foldl max (u + (s.issues i).issueDelay) + (s.issues i).preDelay := by
  unfold issueStart at ht
  simp only [hprev] at ht
  obtain ⟨u, hu, ht⟩ := Option.bind_eq_some_iff.mp ht
  obtain ⟨ts, hts, rfl⟩ := Option.map_eq_some_iff.mp ht
  exact ⟨u, ts, hu, hts, rfl⟩

/-- What simulating an event of the chain at cycle `t` leaves. -/
def simulated (s : Recorder) (i t : Nat) : Recorder :=
  { s with
    issues := Function.update s.issues i { s.issues i with start := some t }
    lastEvSimulatedZllStartCycle := (s.issues i).zllStartCycle
    lastEvSimulatedStartCycle := t
    lastEvProduced := if s.lastEvProduced = some i then none else s.lastEvProduced }

/-- The start of the next event of the chain is no earlier, relative to its `zllStartCycle`, than
the start of the one before it, and so the event is not early. -/
theorem Chain.start_ge (h : s.Chain c k) (hlinked : s.Linked k) (hlt : k < s.numIssues) {t : Nat}
    (ht : s.issueStart k = some t) :
    (s.issues k).zllStartCycle + s.gapCycles ≤ t ∧ ((s.issues k).prev = none →
      t = (s.issues k).zllStartCycle) ∧ ∀ p, (s.issues k).prev = some p →
        ∃ u, (s.issues p).start = some u ∧
          u + (s.issues k).zllStartCycle ≤ t + (s.issues p).zllStartCycle := by
  obtain rfl | hck := Nat.eq_or_lt_of_le h.le
  · obtain ⟨hprev, hmin⟩ := h.root
    unfold issueStart at ht
    simp only [hprev] at ht
    cases ht
    rw [(h.fresh rfl).1, hmin]
    refine ⟨Nat.le_refl _, fun _ => rfl, fun p hp => ?_⟩
    cases hprev.symm.trans hp
  · have hprev := h.prev k hck hlt
    obtain ⟨u, ts, hu, -, rfl⟩ := issueStart_spec hprev ht
    obtain ⟨-, hdelays⟩ := hlinked.next _ hprev
    obtain ⟨-, hlast, hgap⟩ := h.last hck
    obtain rfl : u = s.lastEvSimulatedStartCycle := Option.some.inj (hu.symm.trans hlast)
    have hmax := le_foldl_max (s.lastEvSimulatedStartCycle + (s.issues k).issueDelay) ts
    refine ⟨by omega, fun hnone => ?_, fun p hp => ⟨s.lastEvSimulatedStartCycle, ?_, ?_⟩⟩
    · cases hprev.symm.trans hnone
    · cases hprev.symm.trans hp
      exact hu
    · cases hprev.symm.trans hp
      omega

section

variable {t : Nat}

theorem simulated_self : (s.simulated i t).issues i = { s.issues i with start := some t } :=
  Function.update_self _ _ _

theorem simulated_other (hj : j ≠ i) : (s.simulated i t).issues j = s.issues j :=
  Function.update_of_ne hj _ _

/-- What simulating an event leaves of all events. -/
theorem simulated_links (j : Nat) :
    ((s.simulated i t).issues j).zllStartCycle = (s.issues j).zllStartCycle ∧
      ((s.simulated i t).issues j).minStartCycle = (s.issues j).minStartCycle ∧
      ((s.simulated i t).issues j).prev = (s.issues j).prev := by
  by_cases hj : j = i
  · rw [hj, simulated_self]
    exact ⟨rfl, rfl, rfl⟩
  · rw [simulated_other hj]
    exact ⟨rfl, rfl, rfl⟩

/-- The event that starts. -/
theorem Linked.simulated_self (h : s.Linked i) (hmin : (s.issues i).minStartCycle ≤ t)
    (hroot : (s.issues i).prev = none → t = (s.issues i).zllStartCycle)
    (hprev : ∀ p, (s.issues i).prev = some p → ∃ u, (s.issues p).start = some u ∧
      u + (s.issues i).zllStartCycle ≤ t + (s.issues p).zllStartCycle) :
    (s.simulated i t).Linked i := by
  constructor
  case root =>
    rw [Recorder.simulated_self]
    intro hnone t' ht'
    cases ht'
    exact hroot hnone
  case next =>
    rw [Recorder.simulated_self]
    intro p hp
    rw [(simulated_links p).1]
    exact h.next p hp
  case delayed =>
    rw [Recorder.simulated_self]
    intro p t' hp ht'
    cases ht'
    rw [simulated_other (Nat.ne_of_lt (h.next p hp).1)]
    exact hprev p hp
  case min =>
    rw [Recorder.simulated_self]
    intro t' ht'
    cases ht'
    exact hmin
  case resps =>
    rw [Recorder.simulated_self]
    exact h.resps

/-- The other events, of which those that have started come after one that has. -/
theorem Linked.simulated_other (h : s.Linked j) (hstart : (s.issues i).start = none)
    (hji : j ≠ i) : (s.simulated i t).Linked j := by
  constructor
  case root =>
    rw [Recorder.simulated_other hji]
    exact h.root
  case next =>
    rw [Recorder.simulated_other hji]
    intro p hp
    rw [(simulated_links p).1]
    exact h.next p hp
  case delayed =>
    rw [Recorder.simulated_other hji]
    intro p t' hp ht'
    obtain ⟨u, hu, hle⟩ := h.delayed p t' hp ht'
    have hpi : p ≠ i := by
      rintro rfl
      cases hstart.symm.trans hu
    rw [Recorder.simulated_other hpi]
    exact ⟨u, hu, hle⟩
  case min =>
    rw [Recorder.simulated_other hji]
    exact h.min
  case resps =>
    rw [Recorder.simulated_other hji]
    exact h.resps

theorem Core.simulated (h : s.Core) (hlinked : (s.simulated i t).Linked i)
    (hstart : (s.issues i).start = none) : (s.simulated i t).Core := by
  constructor
  case linked =>
    intro j hj
    by_cases hji : j = i
    · exact hji ▸ hlinked
    · exact (h.linked j hj).simulated_other hstart hji
  case wired =>
    intro r hr
    exact (h.wired r hr).congr hr (Nat.le_refl _)
      (fun j _ => ⟨(simulated_links j).1, (simulated_links j).2.1⟩) (.of_eq rfl rfl)
  case gap => exact h.gap
  case pending =>
    constructor
    case sorted => exact h.pending.sorted
    case known =>
      intro fr hfr r hr
      show _ ∧ _ ∧ ((s.simulated i t).issues (s.numIssues - 1)).zllStartCycle ≤ _
      rw [(simulated_links _).1]
      exact h.pending.known fr hfr r hr

/-- The chain has begun, or goes on. -/
theorem Chain.simulated (h : s.Chain c i) (hi : i < s.numIssues)
    (hge : (s.issues i).zllStartCycle + s.gapCycles ≤ t) :
    (s.simulated i t).Chain c (i + 1) := by
  constructor
  case lt => exact h.lt
  case le => exact Nat.le_succ_of_le h.le
  case top => exact hi
  case root =>
    rw [(simulated_links c).1, (simulated_links c).2.1, (simulated_links c).2.2]
    exact h.root
  case prev =>
    intro j hcj hj
    rw [(simulated_links j).2.2]
    exact h.prev j hcj hj
  case ran =>
    intro j hj
    obtain hj | rfl := Nat.lt_succ_iff_lt_or_eq.mp hj
    · rw [simulated_other (Nat.ne_of_lt hj)]
      exact h.ran j hj
    · rw [simulated_self]
      exact Option.some_ne_none t
  case waits =>
    intro j hij hj
    rw [simulated_other (Nat.ne_of_gt hij)]
    exact h.waits j (Nat.le_of_succ_le hij) hj
  case mins =>
    intro j hij hj
    rw [(simulated_links j).1, (simulated_links j).2.1]
    exact h.mins j (Nat.le_of_succ_le hij) hj
  case fresh =>
    intro hic
    have hle := h.le
    omega
  case last =>
    intro _
    rw [Nat.add_sub_cancel, simulated_self]
    exact ⟨rfl, rfl, hge⟩
  case produced =>
    show (if s.lastEvProduced = some i then none else s.lastEvProduced) =
      if i + 1 = s.numIssues then none else some (s.numIssues - 1)
    rw [h.produced, if_neg (Nat.ne_of_lt hi)]
    by_cases hend : i + 1 = s.numIssues
    · rw [if_pos hend, if_pos (congrArg some (by omega))]
    · rw [if_neg hend, if_neg fun heq => hend (by have := Option.some.inj heq; omega)]
  case cur =>
    show ((s.simulated i t).issues (s.numIssues - 1)).zllStartCycle + _ ≤ _
    rw [(simulated_links _).1]
    exact h.cur

end

theorem Inv.issue (h : Inv phaseLength s) (hweave : s.inWeave = true) (hi : i < s.numIssues)
    (hstart : (s.issues i).start = none) {t : Nat} (ht : s.issueStart i = some t)
    (hlate : t < s.nextPhaseCycle phaseLength) :
    s.simulateIssue i = some (s.simulated i t) ∧ Inv phaseLength (s.simulated i t) := by
  have hstate : s.state ≠ .HALTED := fun hhalted => (h.halted hhalted).2.2.1 i hi hstart
  obtain ⟨c, k, hchain⟩ := h.chain hstate
  obtain rfl := hchain.next_eq hi hstart ht
  obtain ⟨hge, hroot, hprev⟩ := hchain.start_ge (h.core.linked i hi) hi ht
  have hmin := Nat.le_trans (hchain.mins i (Nat.le_refl i) hi) hge
  have hlinked := (h.core.linked i hi).simulated_self hmin hroot hprev
  obtain ⟨-, hweave'⟩ := h.weave hweave
  refine ⟨Option.bind_eq_some_iff.mpr ⟨t, ht, if_pos hmin⟩, ?_⟩
  constructor
  case core => exact h.core.simulated hlinked hstart
  case chain => exact fun _ => ⟨c, i + 1, hchain.simulated hi hge⟩
  case halted => exact fun hhalted => absurd hhalted hstate
  case bound => exact fun hbound => absurd (hweave.symm.trans hbound) Bool.noConfusion
  case weave =>
    refine fun _ => ⟨hlate, fun _ => ?_⟩
    show _ ∧ (_ → _ ≤ ((s.simulated i t).issues (s.numIssues - 1)).zllStartCycle + _) ∧ _
    rw [(simulated_links _).1]
    exact hweave' hstate

/-- A response starts no earlier than after its issue event and the delays between them. -/
theorem respStart_spec {t : Nat} (ht : s.respStart extra r = some t) :
    ∃ u ts, (s.issues (s.resps r).issue).start = some u ∧
      allStarts ((s.resps r).resps.map fun p => (s.resps p.1).start.map (· + p.2)) = some ts ∧
      t = ts.foldl max (u + (s.resps r).dispDelay) + (s.resps r).upDelay +
        ((s.resps r).respCycle - (s.resps r).reqCycle) + extra + (s.resps r).downDelay := by
  unfold respStart at ht
  obtain ⟨u, hu, ht⟩ := Option.bind_eq_some_iff.mp ht
  obtain ⟨ts, hts, rfl⟩ := Option.map_eq_some_iff.mp ht
  exact ⟨u, ts, hu, hts, rfl⟩

/-- What simulating a response at cycle `t` leaves. -/
def answered (s : Recorder) (r t : Nat) : Recorder :=
  { s with resps := Function.update s.resps r { s.resps r with start := some t } }

theorem Inv.resp (h : Inv phaseLength s) (hweave : s.inWeave = true) (hr : r < s.numResps) {t : Nat}
    (ht : s.respStart extra r = some t) :
    s.simulateResp extra r = some (s.answered r t) ∧ Inv phaseLength (s.answered r t) := by
  have hwired := h.core.wired r hr
  obtain ⟨u, ts, hu, -, heq⟩ := respStart_spec ht
  have hmax := le_foldl_max (u + (s.resps r).dispDelay) ts
  have hissue := (h.core.linked _ hwired.issue).min u hu
  have hmin := hwired.min
  have hsame : s.SameResps (s.answered r t) := by
    refine ⟨Nat.le_refl _, fun r' hr' => ?_⟩
    by_cases hrr : r' = r
    · exact ⟨some t, by rw [hrr]; exact Function.update_self _ _ _⟩
    · exact ⟨(s.resps r').start, Function.update_of_ne hrr _ _⟩
  refine ⟨Option.bind_eq_some_iff.mpr ⟨t, ht, if_pos (by omega)⟩, ?_⟩
  constructor
  case core =>
    constructor
    case linked => exact fun i hi => (h.core.linked i hi).congr (fun j _ => rfl) hsame
    case wired =>
      exact fun r' hr' => (h.core.wired r' hr').congr hr' (Nat.le_refl _) (fun i _ => ⟨rfl, rfl⟩)
        hsame
    case gap => exact h.core.gap
    case pending =>
      refine ⟨h.core.pending.sorted, fun fr hfr r' hr' => ?_⟩
      obtain ⟨hknown, hrest⟩ := h.core.pending.known fr hfr r' hr'
      rw [hsame.zll_eq hknown]
      exact ⟨hknown, hrest⟩
  case chain =>
    intro hstate
    obtain ⟨c, k, hchain⟩ := h.chain hstate
    exact ⟨c, k, hchain.congr rfl rfl rfl rfl rfl rfl rfl hchain.cur⟩
  case halted => exact h.halted
  case bound => exact fun hbound => absurd (hweave.symm.trans hbound) Bool.noConfusion
  case weave => exact h.weave

/-! ### The end of a weave phase -/

theorem Chain.zll_mono (h : s.Chain c k) (hlinked : ∀ i < s.numIssues, s.Linked i) (hci : c ≤ i)
    (hij : i ≤ j) (hj : j < s.numIssues) :
    (s.issues i).zllStartCycle ≤ (s.issues j).zllStartCycle := by
  induction j, hij using Nat.le_induction with
  | base => exact Nat.le_refl _
  | succ j hij ih =>
    obtain ⟨-, hdelays⟩ := (hlinked (j + 1) hj).next j
      (h.prev (j + 1) (Nat.lt_succ_of_le (Nat.le_trans hci hij)) hj)
    have := ih (Nat.lt_of_succ_lt hj)
    omega

/-- The skew of a phase: how much the last event that was simulated was delayed in it. -/
def skew (s : Recorder) : Nat :=
  s.lastEvSimulatedStartCycle - (s.lastEvSimulatedZllStartCycle + s.gapCycles)

/-- A core that is not halted, at the end of a phase: its chain has begun, no assertion of `cSimEnd`
fails, and the skew is not negative. -/
theorem Inv.skew_ok (h : Inv phaseLength s) (hpos : 0 < phaseLength) (hweave : s.inWeave = true)
    (hdone : ∀ i < s.numIssues, (s.issues i).start = none →
      ∀ t, s.issueStart i = some t → s.nextPhaseCycle phaseLength ≤ t)
    (hstate : s.state ≠ .HALTED) :
    ∃ c k, c < k ∧ s.Chain c k ∧
      s.lastEvSimulatedZllStartCycle + s.gapCycles ≤ s.curCycle ∧
      s.lastEvSimulatedStartCycle ≤ s.curCycle ∧
      s.lastEvSimulatedZllStartCycle + s.gapCycles ≤ s.lastEvSimulatedStartCycle := by
  obtain ⟨c, k, hchain⟩ := h.chain hstate
  obtain ⟨hlate, hweave'⟩ := h.weave hweave
  obtain ⟨hcur, -, -⟩ := hweave' hstate
  have hck : c < k := by
    by_contra hge
    obtain rfl : k = c := Nat.le_antisymm (Nat.le_of_not_lt hge) hchain.le
    obtain ⟨hprev, hmin⟩ := hchain.root
    have hstarts : s.issueStart k = some (s.issues k).minStartCycle := by
      unfold issueStart
      simp only [hprev]
    have hnext := hdone k hchain.lt (hchain.waits k (Nat.le_refl k) hchain.lt) _ hstarts
    rw [hmin, (hchain.fresh rfl).2] at hnext
    unfold nextPhaseCycle at hnext
    omega
  obtain ⟨hzll, -, hle⟩ := hchain.last hck
  have htop := hchain.top
  have hmono := hchain.zll_mono h.core.linked (Nat.le_sub_one_of_lt hck)
    (Nat.sub_le_sub_right htop 1) (by omega)
  have hlast := hchain.cur
  exact ⟨c, k, hck, hchain, by omega, by omega, by omega⟩

/-- The clock goes `skew` cycles forward, and so does the gap. -/
theorem Chain.skewed (h : s.Chain c k) (hck : c < k)
    (hle : s.lastEvSimulatedZllStartCycle + s.gapCycles ≤ s.lastEvSimulatedStartCycle)
    (hissues : s'.issues = s.issues) (hnum : s'.numIssues = s.numIssues)
    (hgap : s'.gapCycles = s.gapCycles + s.skew) (hcur : s'.curCycle = s.curCycle + s.skew)
    (hzll : s'.lastEvSimulatedZllStartCycle = s.lastEvSimulatedZllStartCycle)
    (hstart : s'.lastEvSimulatedStartCycle = s.lastEvSimulatedStartCycle)
    (hproduced : s'.lastEvProduced = s.lastEvProduced) : s'.Chain c k := by
  obtain ⟨hlastZll, hlastStart, -⟩ := h.last hck
  constructor
  case le => exact h.le
  all_goals simp only [hissues, hnum, hgap, hcur, hzll, hstart, hproduced]
  case lt => exact h.lt
  case top => exact h.top
  case root => exact h.root
  case prev => exact h.prev
  case ran => exact h.ran
  case waits => exact h.waits
  case mins =>
    intro i hki hi
    have := h.mins i hki hi
    omega
  case fresh => exact fun heq => absurd heq (Nat.ne_of_gt hck)
  case last =>
    refine fun _ => ⟨hlastZll, hlastStart, ?_⟩
    unfold skew
    omega
  case produced => exact h.produced
  case cur =>
    have := h.cur
    omega

/-- Responses that were simulated are no longer linked with. -/
theorem Pending.filtered (h : s.Pending) (hissues : s'.issues = s.issues)
    (hnumIssues : s'.numIssues = s.numIssues) (hresps : s'.resps = s.resps)
    (hnumResps : s'.numResps = s.numResps)
    (hfuture : s'.futureResponses = s.futureResponses.map fun fr =>
      { fr with ev := fr.ev.filter fun ev => (s.resps ev).start = none }) : s'.Pending := by
  constructor
  case sorted =>
    rw [hfuture]
    exact List.pairwise_map.mpr h.sorted
  case known =>
    rw [hfuture, hissues, hnumIssues, hresps, hnumResps]
    intro fr hfr r hr
    obtain ⟨fr', hfr', rfl⟩ := List.mem_map.mp hfr
    exact h.known fr' hfr' r (Option.filter_eq_some_iff.mp hr).1

theorem Inv.cSimEnd (h : Inv phaseLength s) (hpos : 0 < phaseLength) (hweave : s.inWeave = true)
    (hdone : ∀ i < s.numIssues, (s.issues i).start = none →
      ∀ t, s.issueStart i = some t → s.nextPhaseCycle phaseLength ≤ t) :
    ∃ s', s.cSimEnd phaseLength = some s' ∧ Inv phaseLength s' ∧ s'.issues = s.issues ∧
      s'.numIssues = s.numIssues ∧ s'.resps = s.resps ∧ s'.numResps = s.numResps ∧
      s'.curCycle + s.gapCycles = s.curCycle + s'.gapCycles ∧
      s'.gapCycles = if s.state = .HALTED then s.gapCycles else s.gapCycles + s.skew := by
  obtain ⟨hlate, hweave'⟩ := h.weave hweave
  have hgap : s.gapCycles ≤ s.nextPhaseCycle phaseLength :=
    Nat.le_trans h.core.gap (Nat.le_add_right _ _)
  by_cases hstate : s.state = .HALTED
  · refine ⟨_, if_pos hstate, ?_, rfl, rfl, rfl, rfl, rfl, (if_pos hstate).symm⟩
    constructor
    case core =>
      exact h.core.of_eq rfl rfl rfl rfl hgap ⟨h.core.pending.sorted, h.core.pending.known⟩
    case chain => exact fun hnot => absurd hstate hnot
    case halted =>
      intro _
      obtain ⟨hnone, hempty, hran, hunhalted⟩ := h.halted hstate
      exact ⟨hnone, hempty, hran, Nat.le_trans hunhalted (Nat.le_add_right _ _)⟩
    case bound => exact fun _ => ⟨Nat.le_of_lt hlate, fun hnot => absurd hstate hnot⟩
    case weave =>
      intro hnot
      cases hnot
  · obtain ⟨c, k, hck, hchain, hok⟩ := h.skew_ok hpos hweave hdone hstate
    obtain ⟨hnextCur, hrunning, hdraining⟩ := hweave' hstate
    obtain ⟨hlastZll, hlastStart, -⟩ := hchain.last hck
    have hle := hok.2.2
    have hskew : s.lastEvSimulatedZllStartCycle + (s.gapCycles + s.skew) =
        s.lastEvSimulatedStartCycle := by
      unfold skew
      omega
    have hlastNext : s.gapCycles + s.skew ≤ s.nextPhaseCycle phaseLength := by omega
    have hcurNext : s.nextPhaseCycle phaseLength ≤ s.curCycle + s.skew :=
      Nat.le_trans hnextCur (Nat.le_add_right _ _)
    by_cases hnone : s.lastEvProduced = none
    · have hkn : k = s.numIssues := by
        by_contra hkn
        rw [hchain.produced, if_neg hkn] at hnone
        cases hnone
      have hdrain : s.state = .DRAINING := by
        cases hs : s.state with
        | HALTED => exact absurd hs hstate
        | DRAINING => rfl
        | RUNNING =>
          have htaper := hrunning hs
          rw [← hkn, ← hlastZll] at htaper
          omega
      have hempty := hdraining hdrain
      refine ⟨_, (if_neg hstate).trans ((if_pos hok).trans ((if_pos hnone).trans
        (if_pos ⟨hdrain, List.map_eq_nil_iff.mpr hempty⟩))), ?_, rfl, rfl, rfl, rfl, ?_,
          (if_neg hstate).symm⟩
      · constructor
        case core =>
          exact h.core.of_eq rfl rfl rfl rfl hlastNext (h.core.pending.filtered rfl rfl rfl rfl rfl)
        case chain => exact fun hnot => absurd rfl hnot
        case halted =>
          exact fun _ => ⟨hnone, List.map_eq_nil_iff.mpr hempty,
            fun i hi => hchain.ran i (hkn ▸ hi), Nat.le_of_lt hlate⟩
        case bound => exact fun _ => ⟨Nat.le_of_lt hlate, fun hnot => absurd rfl hnot⟩
        case weave =>
          intro hnot
          cases hnot
      · show s.curCycle + s.skew + s.gapCycles = s.curCycle + (s.gapCycles + s.skew)
        omega
    · refine ⟨_, (if_neg hstate).trans ((if_pos hok).trans (if_neg hnone)), ?_, rfl, rfl, rfl, rfl,
        ?_, (if_neg hstate).symm⟩
      · constructor
        case core =>
          exact h.core.of_eq rfl rfl rfl rfl hlastNext (h.core.pending.filtered rfl rfl rfl rfl rfl)
        case chain => exact fun _ => ⟨c, k, hchain.skewed hck hle rfl rfl rfl rfl rfl rfl rfl⟩
        case halted => exact fun hhalted => absurd hhalted hstate
        case bound =>
          refine fun _ => ⟨Nat.le_of_lt hlate, fun _ => ⟨hcurNext, hnone, fun fr hfr r hr => ?_⟩⟩
          obtain ⟨fr', hfr', rfl⟩ := List.mem_map.mp hfr
          exact of_decide_eq_true (Option.filter_eq_some_iff.mp hr).2
        case weave =>
          intro hnot
          cases hnot
      · show s.curCycle + s.skew + s.gapCycles = s.curCycle + (s.gapCycles + s.skew)
        omega

end Recorder

end Doppelganger.Ooo
