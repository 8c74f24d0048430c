import Doppelganger.Ooo.Chain

/-! The steps of the bound phase: each keeps the invariant, and fails no assertion, as long as
events are less than `2^32` cycles apart. -/

namespace Doppelganger.Ooo

namespace Recorder

variable {s s' : Recorder} {c k curCycle : Nat} {phaseLength : Nat}

/-- A new issue event is less than `2^32` cycles after the last one. -/
def Near (s : Recorder) (evCycle : Nat) : Prop :=
  ∀ last, s.lastEvProduced = some last →
    evCycle - s.gapCycles < (s.issues last).zllStartCycle + 2 ^ 32

theorem Chain.zll_le (h : s.Chain c k) (hle : s.curCycle ≤ curCycle) :
    (s.issues (s.numIssues - 1)).zllStartCycle + s.gapCycles ≤ curCycle :=
  Nat.le_trans h.cur hle

theorem Core.of_eq (h : s.Core) (hissues : s'.issues = s.issues)
    (hnumIssues : s'.numIssues = s.numIssues) (hresps : s'.resps = s.resps)
    (hnumResps : s'.numResps = s.numResps) (hgap : s'.gapCycles ≤ s'.globPhaseCycles)
    (hpending : s'.Pending) : s'.Core where
  linked := fun i hi =>
    (h.linked i (hnumIssues ▸ hi)).congr (fun j _ => by rw [hissues]) (.of_eq hresps hnumResps)
  wired := fun r hr =>
    (h.wired r (hnumResps ▸ hr)).congr (hnumResps ▸ hr) (Nat.le_of_eq hnumIssues.symm)
      (fun i _ => by rw [hissues]; exact ⟨rfl, rfl⟩) (.of_eq hresps hnumResps)
  gap := hgap
  pending := hpending

/-- A recorder whose core is at cycle `curCycle`, and gets a new issue event at `evCycle`. -/
theorem Core.add (h : s.Core) (hchain : s.Chain c k) (hsome : s.lastEvProduced ≠ none)
    (hclear : ∀ fr ∈ s.futureResponses, ∀ r, fr.ev = some r → (s.resps r).start = none)
    {evCycle : Nat} (hge : (s.issues (s.numIssues - 1)).zllStartCycle + s.gapCycles ≤ evCycle)
    (hle : evCycle ≤ curCycle) (hnear : s.Near evCycle) (state : State) (inWeave : Bool) :
    ∃ s' ev rest,
      addIssueEvent { s with curCycle := curCycle, state := state, inWeave := inWeave } evCycle =
        some s' ∧
      Added { s with curCycle := curCycle, state := state, inWeave := inWeave } evCycle ev rest s' ∧
      s'.Core ∧ s'.Chain c k := by
  obtain ⟨hlt, hproduced⟩ := hchain.produced_eq hsome
  have hchain1 :
      Chain { s with curCycle := curCycle, state := state, inWeave := inWeave } c k :=
    hchain.congr rfl rfl rfl rfl rfl rfl rfl (Nat.le_trans hge hle)
  have hpending1 :
      Pending { s with curCycle := curCycle, state := state, inWeave := inWeave } :=
    ⟨h.pending.sorted, h.pending.known⟩
  have hcore1 : Core { s with curCycle := curCycle, state := state, inWeave := inWeave } :=
    h.of_eq rfl rfl rfl rfl h.gap hpending1
  obtain ⟨s', ev, rest, hadd, q⟩ := addIssueEvent_spec hchain1 hlt hpending1 hclear hge
    (hnear _ hproduced)
  exact ⟨s', ev, rest, hadd, q, q.core hcore1 (Nat.zero_lt_of_lt hlt),
    q.chain hchain1 hlt (Nat.le_trans (Nat.le_add_left _ _) hge) hle⟩

/-- `Core.add` in a bound phase. -/
theorem Inv.add (h : Inv phaseLength s) (hbound : s.inWeave = false) (hstate : s.state ≠ .HALTED)
    (hcur : s.curCycle ≤ curCycle) (hnear : s.Near curCycle) (state : State)
    (hnew : state ≠ .HALTED) :
    ∃ s' ev rest, addIssueEvent { s with curCycle := curCycle, state := state } curCycle = some s' ∧
      Added { s with curCycle := curCycle, state := state } curCycle ev rest s' ∧
      Inv phaseLength s' := by
  obtain ⟨c, k, hchain⟩ := h.chain hstate
  obtain ⟨hlast, hbound'⟩ := h.bound hbound
  obtain ⟨hglob, hsome, hclear⟩ := hbound' hstate
  obtain ⟨s', ev, rest, hadd, q, hcore, hchain'⟩ := h.core.add hchain hsome hclear
    (hchain.zll_le hcur) (Nat.le_refl curCycle) hnear state s.inWeave
  refine ⟨s', ev, rest, hadd, q, ?_⟩
  constructor
  case core => exact hcore
  case chain => exact fun _ => ⟨c, k, hchain'⟩
  case halted =>
    intro hhalted
    rw [q.eq] at hhalted
    exact absurd hhalted hnew
  case bound =>
    intro _
    rw [q.eq]
    refine ⟨hlast, fun _ => ⟨Nat.le_trans hglob hcur, Option.some_ne_none _, ?_⟩⟩
    exact fun fr hfr => hclear fr (q.suffix.mem hfr)
  case weave =>
    intro hweave
    rw [q.eq] at hweave
    exact absurd (hbound.symm.trans hweave) Bool.false_ne_true

/-- A core that was halted begins a chain at the beginning of the phase. -/
theorem Inv.join_halted (h : Inv phaseLength s) (hbound : s.inWeave = false)
    (hs : s.state = .HALTED) :
    ∃ s', s.notifyJoin s.curCycle = some s' ∧ Inv phaseLength s' := by
  obtain ⟨hnone, hempty, hran, hunhalted⟩ := h.halted hs
  obtain ⟨hlast, -⟩ := h.bound hbound
  unfold notifyJoin
  rw [hs]
  dsimp only
  rw [if_pos ⟨hnone, hunhalted⟩]
  refine ⟨_, rfl, ?_⟩
  constructor
  case core =>
    constructor
    case linked =>
      intro i hi
      obtain hi | rfl := Nat.lt_succ_iff_lt_or_eq.mp hi
      · exact (h.core.linked i hi).congr
          (fun j hj => Function.update_of_ne (Nat.ne_of_lt (Nat.lt_of_le_of_lt hj hi)) _ _)
          (.of_eq rfl rfl)
      · constructor <;> simp
    case wired =>
      intro r hr
      refine (h.core.wired r hr).congr hr (Nat.le_succ _) (fun i hi => ?_) (.of_eq rfl rfl)
      dsimp only
      rw [Function.update_of_ne (Nat.ne_of_lt hi)]
      exact ⟨rfl, rfl⟩
    case gap => exact Nat.zero_le _
    case pending =>
      constructor
      case sorted =>
        dsimp only
        rw [hempty]
        exact .nil
      case known =>
        dsimp only
        rw [hempty]
        exact fun fr hfr => absurd hfr List.not_mem_nil
  case chain =>
    refine fun _ => ⟨s.numIssues, s.numIssues, ?_⟩
    constructor
    case lt => exact Nat.lt_succ_self _
    case le => exact Nat.le_refl _
    case top => exact Nat.le_succ _
    case prev =>
      intro i hci hi
      dsimp only at hi
      omega
    case ran =>
      intro i hi
      dsimp only
      rw [Function.update_of_ne (Nat.ne_of_lt hi)]
      exact hran i hi
    case waits =>
      intro i hle hlt
      obtain rfl := Nat.le_antisymm (Nat.le_of_lt_succ hlt) hle
      dsimp only
      rw [Function.update_self]
    case mins =>
      intro i hle hlt
      obtain rfl := Nat.le_antisymm (Nat.le_of_lt_succ hlt) hle
      dsimp only
      rw [Function.update_self]
      exact Nat.le_refl _
    case cur =>
      dsimp only
      rw [Nat.add_sub_cancel, Function.update_self]
      exact Nat.le_max_right _ _
    all_goals simp
  case halted =>
    intro hhalted
    cases hhalted
  case bound =>
    refine fun _ => ⟨hlast, fun _ => ⟨Nat.le_max_right _ _, Option.some_ne_none _, ?_⟩⟩
    dsimp only
    rw [hempty]
    exact fun fr hfr => absurd hfr List.not_mem_nil
  case weave =>
    intro hweave
    exact absurd (hbound.symm.trans hweave) Bool.false_ne_true

theorem Inv.join (h : Inv phaseLength s) (hbound : s.inWeave = false)
    (hstate : s.state ≠ .RUNNING) (hnear : s.state = .DRAINING → s.Near s.curCycle) :
    ∃ s', s.notifyJoin s.curCycle = some s' ∧ Inv phaseLength s' := by
  cases hs : s.state with
  | HALTED => exact h.join_halted hbound hs
  | RUNNING => exact absurd hs hstate
  | DRAINING =>
    have hhalted : s.state ≠ .HALTED := by
      rw [hs]
      decide
    obtain ⟨-, hbound'⟩ := h.bound hbound
    unfold notifyJoin
    rw [hs]
    dsimp only
    rw [if_pos (hbound' hhalted).1]
    obtain ⟨s', ev, rest, hadd, -, hinv⟩ := h.add hbound hhalted (Nat.le_refl s.curCycle)
      (hnear hs) .RUNNING (by decide)
    exact ⟨s', hadd, hinv⟩

theorem Inv.leave (h : Inv phaseLength s) (hbound : s.inWeave = false)
    (hs : s.state = .RUNNING) (hcur : s.curCycle ≤ curCycle) (hnear : s.Near curCycle) :
    ∃ s', s.notifyLeave curCycle = some s' ∧ Inv phaseLength s' := by
  unfold notifyLeave
  rw [if_pos hs]
  obtain ⟨s', ev, rest, hadd, -, hinv⟩ := h.add hbound (by rw [hs]; decide) hcur hnear
    .DRAINING (by decide)
  exact ⟨s', hadd, hinv⟩

/-! ### A new response -/

theorem pushResponse_mem {fr fr' : FutureResponse} {l : List FutureResponse} :
    fr' ∈ pushResponse fr l ↔ fr' = fr ∨ fr' ∈ l := by
  induction l with
  | nil => simp [pushResponse]
  | cons first rest ih =>
    unfold pushResponse
    split
    · rw [List.mem_cons, ih, List.mem_cons]
      exact or_left_comm
    · rw [List.mem_cons]

theorem pushResponse_sorted {fr : FutureResponse} {l : List FutureResponse}
    (h : l.Pairwise fun x y => x.zllStartCycle ≤ y.zllStartCycle) :
    (pushResponse fr l).Pairwise fun x y => x.zllStartCycle ≤ y.zllStartCycle := by
  induction l with
  | nil => exact List.pairwise_singleton _ _
  | cons first rest ih =>
    obtain ⟨hfirst, hrest⟩ := List.pairwise_cons.mp h
    unfold pushResponse
    split
    case isTrue hle =>
      refine List.pairwise_cons.mpr ⟨fun x hx => ?_, ih hrest⟩
      obtain rfl | hx := pushResponse_mem.mp hx
      · exact hle
      · exact hfirst x hx
    case isFalse hlt =>
      have hle := Nat.le_of_not_le hlt
      refine List.pairwise_cons.mpr ⟨fun x hx => ?_, h⟩
      obtain rfl | hx := List.mem_cons.mp hx
      · exact hle
      · exact Nat.le_trans hle (hfirst x hx)

variable {dispatchCycle reqCycle trRespCycle respCycle : Nat}

/-- The events of a GET follow each other in less than `2^32` cycles. -/
structure Prompt (curCycle dispatchCycle reqCycle trRespCycle respCycle : Nat) : Prop where
  dispatch : dispatchCycle < curCycle + 2 ^ 32
  request : reqCycle < dispatchCycle + 2 ^ 32
  response : respCycle < trRespCycle + 2 ^ 32

/-- The recorder with a new response. -/
def responded (s : Recorder) (resp : RespEvent) : Recorder :=
  { s with
    resps := Function.update s.resps s.numResps resp
    numResps := s.numResps + 1
    futureResponses := pushResponse ⟨resp.zllStartCycle, some s.numResps⟩ s.futureResponses }

section

variable {resp : RespEvent}

theorem responded_new : (s.responded resp).resps s.numResps = resp := Function.update_self _ _ _

theorem responded_old {r : Nat} (hr : r < s.numResps) : (s.responded resp).resps r = s.resps r :=
  Function.update_of_ne (Nat.ne_of_lt hr) _ _

theorem responded_sameResps : s.SameResps (s.responded resp) :=
  ⟨Nat.le_succ _, fun _ hr => ⟨_, responded_old hr⟩⟩

theorem responded_mem {fr : FutureResponse} : fr ∈ (s.responded resp).futureResponses ↔
    fr = ⟨resp.zllStartCycle, some s.numResps⟩ ∨ fr ∈ s.futureResponses := pushResponse_mem

theorem Pending.responded (h : s.Pending)
    (hlater : (s.issues (s.numIssues - 1)).zllStartCycle ≤ resp.zllStartCycle) :
    (s.responded resp).Pending := by
  constructor
  case sorted => exact pushResponse_sorted h.sorted
  case known =>
    intro fr hfr r hr
    obtain rfl | hfr := responded_mem.mp hfr
    · cases hr
      rw [responded_new]
      exact ⟨Nat.lt_succ_self _, rfl, hlater⟩
    · obtain ⟨hknown, hrest⟩ := h.known fr hfr r hr
      rw [responded_old hknown]
      exact ⟨Nat.lt_succ_of_lt hknown, hrest⟩

theorem Core.responded (h : s.Core) (hwired : (s.responded resp).Wired s.numResps)
    (hlater : (s.issues (s.numIssues - 1)).zllStartCycle ≤ resp.zllStartCycle) :
    (s.responded resp).Core := by
  constructor
  case linked => exact fun i hi => (h.linked i hi).congr (fun j _ => rfl) responded_sameResps
  case wired =>
    intro r hr
    obtain hr | rfl := Nat.lt_succ_iff_lt_or_eq.mp hr
    · exact (h.wired r hr).congr hr (Nat.le_refl _) (fun i _ => ⟨rfl, rfl⟩) responded_sameResps
    · exact hwired
  case gap => exact h.gap
  case pending => exact h.pending.responded hlater

/-- A response that has not started is added in a bound phase. -/
theorem Inv.responded (h : Inv phaseLength s) (hbound : s.inWeave = false)
    (hstate : s.state ≠ .HALTED) (hstart : resp.start = none)
    (hwired : (s.responded resp).Wired s.numResps)
    (hlater : (s.issues (s.numIssues - 1)).zllStartCycle ≤ resp.zllStartCycle) :
    Inv phaseLength (s.responded resp) := by
  obtain ⟨hlast, hbound'⟩ := h.bound hbound
  obtain ⟨hglob, hsome, hclear⟩ := hbound' hstate
  obtain ⟨c, k, hchain⟩ := h.chain hstate
  constructor
  case core => exact h.core.responded hwired hlater
  case chain => exact fun _ => ⟨c, k, hchain.congr rfl rfl rfl rfl rfl rfl rfl hchain.cur⟩
  case halted => exact fun hhalted => absurd hhalted hstate
  case bound =>
    refine fun _ => ⟨hlast, fun _ => ⟨hglob, hsome, fun fr hfr r hr => ?_⟩⟩
    obtain rfl | hfr := responded_mem.mp hfr
    · cases hr
      rw [responded_new]
      exact hstart
    · rw [responded_old (h.core.pending.known fr hfr r hr).1]
      exact hclear fr hfr r hr
  case weave =>
    intro hweave
    exact absurd (hbound.symm.trans hweave) Bool.false_ne_true

end

/-- The responses that a dispatch waits for, and their delays. -/
theorem Pending.prior_spec (h : s.Pending)
    (hclear : ∀ fr ∈ s.futureResponses, ∀ r, fr.ev = some r → (s.resps r).start = none)
    {zllDispatchCycle : Nat}
    (hnear : zllDispatchCycle < (s.issues (s.numIssues - 1)).zllStartCycle + 2 ^ 32) :
    ∀ p ∈ s.futureResponses.filterMap (fun fr : FutureResponse => fr.ev.bind fun ev =>
      if fr.zllStartCycle < zllDispatchCycle then
        some (ev, delay zllDispatchCycle fr.zllStartCycle) else none),
      (s.resps p.1).start = none ∧ p.1 < s.numResps ∧
        (s.resps p.1).zllStartCycle + p.2 = zllDispatchCycle := by
  intro p hp
  obtain ⟨fr, hfr, hev⟩ := List.mem_filterMap.mp hp
  obtain ⟨r, hr, hev⟩ := Option.bind_eq_some_iff.mp hev
  split at hev
  case isTrue hlt =>
    cases hev
    obtain ⟨hknown, hfrzll, hlater⟩ := h.known fr hfr r hr
    rw [delay_eq (Nat.le_of_lt hlt) (by omega), hfrzll]
    exact ⟨hclear fr hfr r hr, hknown, by omega⟩
  case isFalse => cases hev

theorem Inv.get (h : Inv phaseLength s) (hbound : s.inWeave = false) (hs : s.state = .RUNNING)
    (hcur : s.curCycle ≤ curCycle) (hdisp : curCycle ≤ dispatchCycle)
    (hreq : dispatchCycle ≤ reqCycle) (htr : reqCycle ≤ trRespCycle)
    (hresp : trRespCycle ≤ respCycle) (hnear : s.Near curCycle)
    (hprompt : Prompt curCycle dispatchCycle reqCycle trRespCycle respCycle) :
    ∃ s', s.recordGet curCycle dispatchCycle reqCycle trRespCycle respCycle = some s' ∧
      Inv phaseLength s' := by
  have hstate : s.state ≠ .HALTED := by
    rw [hs]
    decide
  obtain ⟨s1, ev, rest, hadd, q, h1⟩ := h.add hbound hstate hcur hnear s.state hstate
  have hbound1 : s1.inWeave = false ∧ s1.state ≠ .HALTED := by
    rw [q.eq]
    exact ⟨hbound, hstate⟩
  obtain ⟨-, -, hclear1⟩ := (h1.bound hbound1.1).2 hbound1.2
  have hgap1 : s1.gapCycles = s.gapCycles := by rw [q.eq]
  have hgap : s.gapCycles ≤ curCycle :=
    Nat.le_trans h.core.gap (Nat.le_trans ((h.bound hbound).2 hstate).1 hcur)
  have hzll : (s1.issues (s1.numIssues - 1)).zllStartCycle = curCycle - s1.gapCycles := by
    rw [q.last_eq, hgap1]
    exact q.zll
  have hmin : (s1.issues (s1.numIssues - 1)).minStartCycle = curCycle := by
    rw [q.last_eq]
    exact q.min
  have hpos : 0 < s1.numIssues := by
    rw [q.numIssues]
    exact Nat.succ_pos _
  obtain ⟨hd1, hd2, hd3⟩ := hprompt
  have hdelay1 := delay_eq hdisp hd1
  have hdelay2 := delay_eq hreq hd2
  have hdelay3 := delay_eq hresp hd3
  have hprior := h1.core.pending.prior_spec hclear1
    (show dispatchCycle - s1.gapCycles < _ by omega)
  refine ⟨_, Option.bind_eq_some_iff.mpr
    ⟨s1, hadd, if_pos ⟨hresp, fun p hp => (hprior p hp).1⟩⟩, ?_⟩
  generalize List.filterMap _ s1.futureResponses = prior at hprior
  show Inv phaseLength (s1.responded ⟨respCycle - s1.gapCycles, respCycle, s1.numIssues - 1,
    delay dispatchCycle curCycle, prior, delay reqCycle dispatchCycle, reqCycle, trRespCycle,
    delay respCycle trRespCycle, none⟩)
  apply h1.responded hbound1.1 hbound1.2 rfl
  case hwired =>
    constructor <;> rw [responded_new]
    case issue => exact Nat.sub_one_lt (Nat.ne_of_gt hpos)
    case min =>
      show respCycle ≤ (s1.issues (s1.numIssues - 1)).minStartCycle + _ + _ + _ + _
      dsimp only
      omega
    case zll =>
      show (s1.issues (s1.numIssues - 1)).zllStartCycle + _ + _ + _ + _ = respCycle - s1.gapCycles
      dsimp only
      omega
    case resps =>
      intro p hp
      obtain ⟨-, hknown, hzll'⟩ := hprior p hp
      rw [responded_old hknown]
      refine ⟨Nat.lt_succ_of_lt hknown, hzll'.trans ?_⟩
      show _ = (s1.issues (s1.numIssues - 1)).zllStartCycle + _
      dsimp only
      omega
  case hlater =>
    dsimp only
    omega

theorem Inv.put (h : Inv phaseLength s) (hbound : s.inWeave = false) (hs : s.state = .RUNNING)
    (hcur : s.curCycle ≤ curCycle) :
    ∃ s', s.recordPut curCycle = some s' ∧ Inv phaseLength s' := by
  have hstate : s.state ≠ .HALTED := by
    rw [hs]
    decide
  obtain ⟨c, k, hchain⟩ := h.chain hstate
  obtain ⟨hlast, hbound'⟩ := h.bound hbound
  obtain ⟨hglob, hsome, hclear⟩ := hbound' hstate
  obtain ⟨hlt, hproduced⟩ := hchain.produced_eq hsome
  have hstart := hchain.waits _ (Nat.le_sub_one_of_lt hlt) (Nat.sub_one_lt (Nat.ne_zero_of_lt hlt))
  refine ⟨{ s with curCycle := curCycle },
    Option.bind_eq_some_iff.mpr ⟨_, hproduced, if_pos hstart⟩, ?_⟩
  constructor
  case core =>
    exact h.core.of_eq rfl rfl rfl rfl h.core.gap ⟨h.core.pending.sorted, h.core.pending.known⟩
  case chain =>
    exact fun _ => ⟨c, k, hchain.congr rfl rfl rfl rfl rfl rfl rfl (hchain.zll_le hcur)⟩
  case halted => exact h.halted
  case bound => exact fun _ => ⟨hlast, fun _ => ⟨Nat.le_trans hglob hcur, hsome, hclear⟩⟩
  case weave =>
    intro hweave
    exact absurd (hbound.symm.trans hweave) Bool.false_ne_true

end Recorder

end Doppelganger.Ooo
