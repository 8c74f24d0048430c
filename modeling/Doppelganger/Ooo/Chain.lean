import Doppelganger.Lib.Run
import Doppelganger.Ooo.Recorder
import Mathlib.Data.List.Basic

/-! The chain of issue events.  An event starts no earlier, relative to its `zllStartCycle`, than
the one before it; `gapCycles` is what the last event that was simulated had at the end of a phase,
so the clock never has to go back. -/

namespace Doppelganger.Ooo

namespace Recorder

variable {s s' : Recorder} {i k c n m r a b lastZll : Nat} {phaseLength : Nat}

/-! ### Delays -/

theorem delay_eq (hle : b ≤ a) (hlt : a < b + 2 ^ 32) : delay a b = a - b := by
  unfold delay
  omega

/-- What `linkPrior` finds: events that are to be done by `maxCycle`. -/
theorem linkPrior_spec (zll : Nat) {l : List FutureResponse} (linked : List Nat)
    (hsorted : l.Pairwise fun x y => x.zllStartCycle ≤ y.zllStartCycle)
    (hlive : ∀ fr ∈ l, fr.ev ≠ none → lastZll ≤ fr.zllStartCycle)
    (hle : ∀ fr ∈ l, m ≤ fr.zllStartCycle) (hm : m = 0 ∨ lastZll ≤ m ∧ m < zll) :
    ∃ linked' m' rest, linkPrior zll lastZll l linked m = some (linked', m', rest) ∧
      rest <:+ l ∧ (∀ fr ∈ rest, zll ≤ fr.zllStartCycle) ∧ (m' = 0 ∨ lastZll ≤ m' ∧ m' < zll) ∧
      m ≤ m' ∧ ∀ r ∈ linked', r ∈ linked ∨ ∃ fr ∈ l, fr.ev = some r ∧ fr.zllStartCycle ≤ m' := by
  induction l generalizing linked m with
  | nil =>
    exact ⟨linked, m, [], rfl, List.suffix_rfl, fun _ hfr => absurd hfr List.not_mem_nil, hm,
      Nat.le_refl m, fun r hr => .inl hr⟩
  | cons fr l ih =>
    obtain ⟨hfirst, hsorted⟩ := List.pairwise_cons.mp hsorted
    unfold linkPrior
    split
    case isTrue hlate =>
      refine ⟨linked, m, _, rfl, List.suffix_rfl, fun fr' hfr' => ?_, hm, Nat.le_refl m,
        fun r hr => .inl hr⟩
      obtain rfl | hfr' := List.mem_cons.mp hfr'
      · exact hlate
      · exact Nat.le_trans hlate (hfirst fr' hfr')
    case isFalse hearly =>
      have hlive' := fun fr' hfr' => hlive fr' (List.mem_cons_of_mem _ hfr')
      split
      case h_1 ev hev =>
        have hlast : lastZll ≤ fr.zllStartCycle := hlive fr List.mem_cons_self (by simp [hev])
        have hmax := hle fr List.mem_cons_self
        rw [if_pos ⟨hmax, hlast⟩]
        obtain ⟨linked', m', rest, heq, hsuffix, hrest, hm', hmm', hlinked⟩ :=
          ih (linked ++ [ev]) hsorted hlive' hfirst (.inr ⟨hlast, by omega⟩)
        refine ⟨linked', m', rest, heq, hsuffix.trans (List.suffix_cons _ _), hrest, hm',
          Nat.le_trans hmax hmm', fun r hr => ?_⟩
        obtain hr | ⟨fr', hfr', hev', hle'⟩ := hlinked r hr
        · obtain hr | hr := List.mem_append.mp hr
          · exact .inl hr
          · rw [List.mem_singleton] at hr
            exact .inr ⟨fr, List.mem_cons_self, hr ▸ hev, hmm'⟩
        · exact .inr ⟨fr', List.mem_cons_of_mem _ hfr', hev', hle'⟩
      case h_2 =>
        obtain ⟨linked', m', rest, heq, hsuffix, hrest, hm', hmm', hlinked⟩ :=
          ih linked hsorted hlive'
            (fun fr' hfr' => hle fr' (List.mem_cons_of_mem _ hfr')) hm
        refine ⟨linked', m', rest, heq, hsuffix.trans (List.suffix_cons _ _), hrest, hm', hmm',
          fun r hr => ?_⟩
        exact (hlinked r hr).imp_right fun ⟨fr', hfr', h⟩ => ⟨fr', List.mem_cons_of_mem _ hfr', h⟩

/-! ### Invariants -/

/-- An issue event and the one before it: the delays between them are the difference of their
`zllStartCycle`, and an event that was simulated is delayed as much as the one before it. -/
structure Linked (s : Recorder) (i : Nat) : Prop where
  root : (s.issues i).prev = none → ∀ t, (s.issues i).start = some t →
    t = (s.issues i).zllStartCycle
  next : ∀ p, (s.issues i).prev = some p → p < i ∧
    (s.issues p).zllStartCycle + (s.issues i).issueDelay + (s.issues i).preDelay =
      (s.issues i).zllStartCycle
  delayed : ∀ p t, (s.issues i).prev = some p → (s.issues i).start = some t →
    ∃ u, (s.issues p).start = some u ∧
      u + (s.issues i).zllStartCycle ≤ t + (s.issues p).zllStartCycle
  min : ∀ t, (s.issues i).start = some t → (s.issues i).minStartCycle ≤ t
  resps : ∀ r ∈ (s.issues i).resps, r < s.numResps ∧
    (s.resps r).zllStartCycle + (s.issues i).preDelay ≤ (s.issues i).zllStartCycle

/-- A response and the events before it: the delays between them are the difference of their
`zllStartCycle`. -/
structure Wired (s : Recorder) (r : Nat) : Prop where
  issue : (s.resps r).issue < s.numIssues
  min : (s.resps r).minStartCycle ≤ (s.issues (s.resps r).issue).minStartCycle +
    (s.resps r).dispDelay + (s.resps r).upDelay +
      ((s.resps r).respCycle - (s.resps r).reqCycle) + (s.resps r).downDelay
  zll : (s.issues (s.resps r).issue).zllStartCycle +
    (s.resps r).dispDelay + (s.resps r).upDelay +
      ((s.resps r).respCycle - (s.resps r).reqCycle) + (s.resps r).downDelay =
        (s.resps r).zllStartCycle
  resps : ∀ p ∈ (s.resps r).resps, p.1 < s.numResps ∧ (s.resps p.1).zllStartCycle + p.2 =
    (s.issues (s.resps r).issue).zllStartCycle + (s.resps r).dispDelay

/-- The chain that starts at event `c`, of which the events below `k` were simulated. -/
structure Chain (s : Recorder) (c k : Nat) : Prop where
  lt : c < s.numIssues
  le : c ≤ k
  top : k ≤ s.numIssues
  root : (s.issues c).prev = none ∧ (s.issues c).minStartCycle = (s.issues c).zllStartCycle
  prev : ∀ i, c < i → i < s.numIssues → (s.issues i).prev = some (i - 1)
  ran : ∀ i, i < k → (s.issues i).start ≠ none
  waits : ∀ i, k ≤ i → i < s.numIssues → (s.issues i).start = none
  mins : ∀ i, k ≤ i → i < s.numIssues →
    (s.issues i).minStartCycle ≤ (s.issues i).zllStartCycle + s.gapCycles
  fresh : k = c → s.gapCycles = 0 ∧ (s.issues c).zllStartCycle = s.globPhaseCycles
  last : c < k → s.lastEvSimulatedZllStartCycle = (s.issues (k - 1)).zllStartCycle ∧
    (s.issues (k - 1)).start = some s.lastEvSimulatedStartCycle ∧
    (s.issues (k - 1)).zllStartCycle + s.gapCycles ≤ s.lastEvSimulatedStartCycle
  produced : s.lastEvProduced = if k = s.numIssues then none else some (s.numIssues - 1)
  cur : (s.issues (s.numIssues - 1)).zllStartCycle + s.gapCycles ≤ s.curCycle

/-- The responses that are outstanding. -/
structure Pending (s : Recorder) : Prop where
  sorted : s.futureResponses.Pairwise fun x y => x.zllStartCycle ≤ y.zllStartCycle
  known : ∀ fr ∈ s.futureResponses, ∀ r, fr.ev = some r → r < s.numResps ∧
    (s.resps r).zllStartCycle = fr.zllStartCycle ∧
    (s.issues (s.numIssues - 1)).zllStartCycle ≤ fr.zllStartCycle

/-- What bound and weave phases keep. -/
structure Core (s : Recorder) : Prop where
  linked : ∀ i < s.numIssues, s.Linked i
  wired : ∀ r < s.numResps, s.Wired r
  gap : s.gapCycles ≤ s.globPhaseCycles
  pending : s.Pending

structure Inv (phaseLength : Nat) (s : Recorder) : Prop where
  core : s.Core
  chain : s.state ≠ .HALTED → ∃ c k, s.Chain c k
  halted : s.state = .HALTED → s.lastEvProduced = none ∧ s.futureResponses = [] ∧
    (∀ i < s.numIssues, (s.issues i).start ≠ none) ∧ s.lastUnhaltedCycle ≤ s.globPhaseCycles
  bound : s.inWeave = false → s.lastEvSimulatedStartCycle ≤ s.globPhaseCycles ∧
    (s.state ≠ .HALTED → s.globPhaseCycles ≤ s.curCycle ∧ s.lastEvProduced ≠ none ∧
      ∀ fr ∈ s.futureResponses, ∀ r, fr.ev = some r → (s.resps r).start = none)
  weave : s.inWeave = true → s.lastEvSimulatedStartCycle < s.nextPhaseCycle phaseLength ∧
    (s.state ≠ .HALTED → s.nextPhaseCycle phaseLength ≤ s.curCycle ∧
      (s.state = .RUNNING → s.nextPhaseCycle phaseLength ≤
        (s.issues (s.numIssues - 1)).zllStartCycle + s.gapCycles) ∧
      (s.state = .DRAINING → s.futureResponses = []))

theorem init_inv (phaseLength : Nat) : Inv phaseLength init := by
  constructor
  case core =>
    constructor
    case pending => constructor <;> simp [init]
    all_goals simp [init]
  all_goals simp [init]

/-- The last event that was produced, when there is one. -/
theorem Chain.produced_eq (h : s.Chain c k) (hsome : s.lastEvProduced ≠ none) :
    k < s.numIssues ∧ s.lastEvProduced = some (s.numIssues - 1) := by
  have hproduced := h.produced
  have htop := h.top
  split at hproduced
  · exact absurd hproduced hsome
  · exact ⟨by omega, hproduced⟩

/-- The chain does not depend on responses, and its core may be ahead of it. -/
theorem Chain.congr (h : s.Chain c k) (hissues : s'.issues = s.issues)
    (hnum : s'.numIssues = s.numIssues) (hgap : s'.gapCycles = s.gapCycles)
    (hglob : s'.globPhaseCycles = s.globPhaseCycles)
    (hzll : s'.lastEvSimulatedZllStartCycle = s.lastEvSimulatedZllStartCycle)
    (hstart : s'.lastEvSimulatedStartCycle = s.lastEvSimulatedStartCycle)
    (hproduced : s'.lastEvProduced = s.lastEvProduced)
    (hcur : (s.issues (s.numIssues - 1)).zllStartCycle + s.gapCycles ≤ s'.curCycle) :
    s'.Chain c k := by
  constructor
  case le => exact h.le
  all_goals simp only [hissues, hnum, hgap, hglob, hzll, hstart, hproduced]
  case lt => exact h.lt
  case top => exact h.top
  case root => exact h.root
  case prev => exact h.prev
  case ran => exact h.ran
  case waits => exact h.waits
  case mins => exact h.mins
  case fresh => exact h.fresh
  case last => exact h.last
  case produced => exact h.produced
  case cur => exact hcur

/-! ### A new issue event -/

/-- A recorder after `addIssueEvent`: the new event and the responses that are still outstanding. -/
structure Added (s : Recorder) (evCycle : Nat) (ev : IssueEvent) (rest : List FutureResponse)
    (s' : Recorder) : Prop where
  eq : s' = { s with
    futureResponses := rest
    issues := Function.update s.issues s.numIssues ev
    numIssues := s.numIssues + 1
    lastEvProduced := some s.numIssues }
  zll : ev.zllStartCycle = evCycle - s.gapCycles
  min : ev.minStartCycle = evCycle
  prev : ev.prev = some (s.numIssues - 1)
  delays : (s.issues (s.numIssues - 1)).zllStartCycle + ev.issueDelay + ev.preDelay =
    ev.zllStartCycle
  start : ev.start = none
  resps : ∀ r ∈ ev.resps, r < s.numResps ∧
    (s.resps r).zllStartCycle + ev.preDelay ≤ ev.zllStartCycle
  suffix : rest <:+ s.futureResponses
  later : ∀ fr ∈ rest, ev.zllStartCycle ≤ fr.zllStartCycle

theorem addIssueEvent_spec (hchain : s.Chain c k) (hlt : k < s.numIssues) (hpending : s.Pending)
    (hclear : ∀ fr ∈ s.futureResponses, ∀ r, fr.ev = some r → (s.resps r).start = none)
    {evCycle : Nat} (hge : (s.issues (s.numIssues - 1)).zllStartCycle + s.gapCycles ≤ evCycle)
    (hnear : evCycle - s.gapCycles < (s.issues (s.numIssues - 1)).zllStartCycle + 2 ^ 32) :
    ∃ s' ev rest, s.addIssueEvent evCycle = some s' ∧ Added s evCycle ev rest s' := by
  have hlast : s.lastEvProduced = some (s.numIssues - 1) := by
    rw [hchain.produced, if_neg (Nat.ne_of_lt hlt)]
  have hstart : (s.issues (s.numIssues - 1)).start = none :=
    hchain.waits _ (Nat.le_sub_one_of_lt hlt) (Nat.sub_one_lt (by omega))
  unfold addIssueEvent
  rw [hlast, Option.bind_some]
  dsimp only
  generalize hzll : evCycle - s.gapCycles = zll at hnear
  generalize hlastZll : (s.issues (s.numIssues - 1)).zllStartCycle = lastZll at hge hnear
  have hle : lastZll ≤ zll := by omega
  obtain ⟨linked, m, rest, hlink, hsuffix, hrest, hm, -, hlinked⟩ :=
    linkPrior_spec zll [] hpending.sorted
      (fun fr hfr hev => by
        obtain ⟨r, hr⟩ := Option.ne_none_iff_exists'.mp hev
        exact hlastZll ▸ (hpending.known fr hfr r hr).2.2)
      (fun fr _ => Nat.zero_le fr.zllStartCycle) (.inl rfl)
  have hresps : ∀ r ∈ linked, ∃ fr ∈ s.futureResponses, fr.ev = some r ∧ fr.zllStartCycle ≤ m :=
    fun r hr => (hlinked r hr).resolve_left List.not_mem_nil
  have hnone : ∀ r ∈ linked, (s.resps r).start = none := fun r hr => by
    obtain ⟨fr, hfr, hev, -⟩ := hresps r hr
    exact hclear fr hfr r hev
  generalize hpre : (if m ≠ 0 ∧ m < zll then delay zll m else 0) = pre
  have hpre' : m + pre ≤ zll ∧ lastZll + pre ≤ zll := by
    rw [← hpre]
    split
    case isTrue hpos =>
      obtain hm | hm := hm
      · exact absurd hm hpos.1
      · rw [delay_eq (Nat.le_of_lt hpos.2) (by omega)]
        omega
    case isFalse hnot =>
      obtain hm | hm := hm
      · omega
      · omega
  rw [if_pos ⟨hle, hstart⟩, hlink, Option.bind_some]
  dsimp only
  rw [if_pos hnone, hpre]
  refine ⟨_, _, rest, rfl, ⟨rfl, hzll.symm, rfl, rfl, ?_, rfl, fun r hr => ?_, hsuffix, hrest⟩⟩
  · dsimp only
    rw [hlastZll, delay_eq hpre'.2 (by omega)]
    omega
  · obtain ⟨fr, hfr, hev, hfrm⟩ := hresps r hr
    obtain ⟨hknown, hfrzll, -⟩ := hpending.known fr hfr r hev
    refine ⟨hknown, ?_⟩
    dsimp only
    rw [hfrzll]
    omega

/-- Between two recorders, at most the starts of the responses of the first were set. -/
def SameResps (s s' : Recorder) : Prop :=
  s.numResps ≤ s'.numResps ∧
    ∀ r < s.numResps, ∃ t, s'.resps r = { s.resps r with start := t }

theorem SameResps.of_eq (hresps : s'.resps = s.resps) (hnum : s'.numResps = s.numResps) :
    s.SameResps s' :=
  ⟨Nat.le_of_eq hnum.symm, fun r _ => ⟨(s.resps r).start, by rw [hresps]⟩⟩

theorem SameResps.zll_eq (h : s.SameResps s') {r : Nat} (hr : r < s.numResps) :
    (s'.resps r).zllStartCycle = (s.resps r).zllStartCycle := by
  obtain ⟨t, ht⟩ := h.2 r hr
  rw [ht]

theorem Linked.congr (h : s.Linked i) (heq : ∀ j ≤ i, s'.issues j = s.issues j)
    (hresps : s.SameResps s') : s'.Linked i := by
  have hi := heq i (Nat.le_refl i)
  constructor
  case root =>
    rw [hi]
    exact h.root
  case next =>
    intro p hp
    rw [hi] at hp ⊢
    obtain ⟨hlt, hdelays⟩ := h.next p hp
    rw [heq p (Nat.le_of_lt hlt)]
    exact ⟨hlt, hdelays⟩
  case delayed =>
    intro p t hp ht
    rw [hi] at hp ht ⊢
    rw [heq p (Nat.le_of_lt (h.next p hp).1)]
    exact h.delayed p t hp ht
  case min =>
    rw [hi]
    exact h.min
  case resps =>
    rw [hi]
    intro r hr
    obtain ⟨hlt, hle⟩ := h.resps r hr
    rw [hresps.zll_eq hlt]
    exact ⟨Nat.lt_of_lt_of_le hlt hresps.1, hle⟩

theorem Wired.congr (h : s.Wired r) (hr : r < s.numResps) (hnum : s.numIssues ≤ s'.numIssues)
    (hissues : ∀ i < s.numIssues, (s'.issues i).zllStartCycle = (s.issues i).zllStartCycle ∧
      (s'.issues i).minStartCycle = (s.issues i).minStartCycle)
    (hresps : s.SameResps s') : s'.Wired r := by
  obtain ⟨t, ht⟩ := hresps.2 r hr
  obtain ⟨hzll, hmin⟩ := hissues _ h.issue
  constructor
  case issue =>
    rw [ht]
    exact Nat.lt_of_lt_of_le h.issue hnum
  case min =>
    rw [ht]
    dsimp only
    rw [hmin]
    exact h.min
  case zll =>
    rw [ht]
    dsimp only
    rw [hzll]
    exact h.zll
  case resps =>
    rw [ht]
    dsimp only
    rw [hzll]
    intro p hp
    obtain ⟨hlt, heq⟩ := h.resps p hp
    rw [hresps.zll_eq hlt]
    exact ⟨Nat.lt_of_lt_of_le hlt hresps.1, heq⟩

namespace Added

variable {evCycle : Nat} {ev : IssueEvent} {rest : List FutureResponse}
  (q : Added s evCycle ev rest s')

include q

theorem issues_eq (hi : i < s.numIssues) : s'.issues i = s.issues i := by
  rw [q.eq]
  exact Function.update_of_ne (Nat.ne_of_lt hi) _ _

theorem issues_new : s'.issues s.numIssues = ev := by
  rw [q.eq]
  exact Function.update_self _ _ _

theorem numIssues : s'.numIssues = s.numIssues + 1 := by rw [q.eq]

theorem last_eq : s'.issues (s'.numIssues - 1) = ev := by
  rw [q.numIssues, Nat.add_sub_cancel, q.issues_new]

theorem sameResps : s.SameResps s' := by
  rw [q.eq]
  exact .of_eq rfl rfl

theorem linked (hpos : 0 < s.numIssues) (h : ∀ i < s.numIssues, s.Linked i) :
    ∀ i < s'.numIssues, s'.Linked i := by
  intro i hi
  rw [q.numIssues] at hi
  obtain hlt | rfl := Nat.lt_succ_iff_lt_or_eq.mp hi
  · exact (h i hlt).congr (fun j hj => q.issues_eq (Nat.lt_of_le_of_lt hj hlt)) q.sameResps
  · constructor
    case root =>
      intro hroot
      rw [q.issues_new, q.prev] at hroot
      cases hroot
    case next =>
      intro p hp
      rw [q.issues_new, q.prev] at hp
      cases hp
      rw [q.issues_new, q.issues_eq (Nat.sub_one_lt (by omega))]
      exact ⟨Nat.sub_one_lt (by omega), q.delays⟩
    case delayed =>
      intro p t _ ht
      rw [q.issues_new, q.start] at ht
      cases ht
    case min =>
      intro t ht
      rw [q.issues_new, q.start] at ht
      cases ht
    case resps =>
      rw [q.issues_new, q.eq]
      exact q.resps

theorem pending (h : s.Pending) : s'.Pending := by
  have hrest : s'.futureResponses = rest := by rw [q.eq]
  have hresps : s'.resps = s.resps ∧ s'.numResps = s.numResps := by rw [q.eq]; exact ⟨rfl, rfl⟩
  constructor
  case sorted =>
    rw [hrest]
    exact h.sorted.sublist q.suffix.sublist
  case known =>
    intro fr hfr r hr
    rw [hrest] at hfr
    obtain ⟨hknown, hzll, -⟩ := h.known fr (q.suffix.mem hfr) r hr
    rw [hresps.1, hresps.2, q.last_eq]
    exact ⟨hknown, hzll, q.later fr hfr⟩

theorem chain (h : s.Chain c k) (hlt : k < s.numIssues) (hgap : s.gapCycles ≤ evCycle)
    (hcur : evCycle ≤ s.curCycle) : s'.Chain c k := by
  have hnum := q.numIssues
  have hgaps : s'.gapCycles = s.gapCycles ∧ s'.globPhaseCycles = s.globPhaseCycles ∧
      s'.lastEvSimulatedZllStartCycle = s.lastEvSimulatedZllStartCycle ∧
      s'.lastEvSimulatedStartCycle = s.lastEvSimulatedStartCycle ∧ s'.curCycle = s.curCycle ∧
      s'.lastEvProduced = some s.numIssues := by
    rw [q.eq]
    exact ⟨rfl, rfl, rfl, rfl, rfl, rfl⟩
  have hclt := h.lt
  constructor
  case lt => omega
  case le => exact h.le
  case top => omega
  case root =>
    rw [q.issues_eq hclt]
    exact h.root
  case prev =>
    intro i hci hi
    rw [hnum] at hi
    obtain hi | rfl := Nat.lt_succ_iff_lt_or_eq.mp hi
    · rw [q.issues_eq hi]
      exact h.prev i hci hi
    · rw [q.issues_new]
      exact q.prev
  case ran =>
    intro i hi
    rw [q.issues_eq (by omega)]
    exact h.ran i hi
  case waits =>
    intro i hki hi
    rw [hnum] at hi
    obtain hi | rfl := Nat.lt_succ_iff_lt_or_eq.mp hi
    · rw [q.issues_eq hi]
      exact h.waits i hki hi
    · rw [q.issues_new]
      exact q.start
  case mins =>
    intro i hki hi
    rw [hnum] at hi
    rw [hgaps.1]
    obtain hi | rfl := Nat.lt_succ_iff_lt_or_eq.mp hi
    · rw [q.issues_eq hi]
      exact h.mins i hki hi
    · rw [q.issues_new, q.min, q.zll]
      omega
  case fresh =>
    rw [hgaps.1, hgaps.2.1, q.issues_eq hclt]
    exact h.fresh
  case last =>
    rw [hgaps.1, hgaps.2.2.1, hgaps.2.2.2.1, q.issues_eq (by omega)]
    exact h.last
  case produced => rw [hgaps.2.2.2.2.2, if_neg (by omega), hnum, Nat.add_sub_cancel]
  case cur =>
    rw [q.last_eq, q.zll, hgaps.1, hgaps.2.2.2.2.1]
    omega

theorem wired (h : ∀ r < s.numResps, s.Wired r) : ∀ r < s'.numResps, s'.Wired r := by
  intro r hr
  replace hr : r < s.numResps := by
    rw [q.eq] at hr
    exact hr
  refine (h r hr).congr hr ?_ (fun i hi => ?_) q.sameResps
  · rw [q.numIssues]
    exact Nat.le_succ _
  · rw [q.issues_eq hi]
    exact ⟨rfl, rfl⟩

theorem core (h : s.Core) (hpos : 0 < s.numIssues) : s'.Core where
  linked := q.linked hpos h.linked
  wired := q.wired h.wired
  gap := by
    rw [q.eq]
    exact h.gap
  pending := q.pending h.pending

end Added

end Recorder

end Doppelganger.Ooo
