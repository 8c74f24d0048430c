import Doppelganger.Weave.TimingEvent
import Mathlib.Data.List.Nodup
import Mathlib.Order.WellFoundedSet

/-! The graph of the events.  `numParents` counts the parents that are not done and the calls that
are to come, so an event that has no more of them starts after all its parents. -/

namespace Doppelganger.Weave

open Function List Lib

/-! ### What the log says -/

/-- The parent was done early enough for a start at `cycle`. -/
def After {ι : Type*} (spec : ι → EventSpec) (log : List (Record ι)) (parent : ι) (cycle : Nat) :
    Prop :=
  ∃ c, ⟨.done, parent, c⟩ ∈ log ∧ c + (spec parent).postDelay ≤ cycle

section

variable {ι : Type*} {spec : ι → EventSpec} {log : List (Record ι)} {e : ι} {t t' : Nat}

theorem After.mono (h : After spec log e t) (ht : t ≤ t') : After spec log e t' := by
  obtain ⟨c, hc, hle⟩ := h
  exact ⟨c, hc, Nat.le_trans hle ht⟩

theorem After.append (h : After spec log e t) (newer : List (Record ι)) :
    After spec (newer ++ log) e t := by
  obtain ⟨c, hc, hle⟩ := h
  exact ⟨c, mem_append_right _ hc, hle⟩

end

namespace EventSim

variable {ι : Type*} [DecidableEq ι]

def states (s : EventSim ι) (e : ι) : EventState := (s.events e).state

def childrenOf (edges : List (ι × ι)) (e : ι) : List ι := (edges.filter (·.1 = e)).map Prod.snd

/-- The edges of a kind whose parents are not done. -/
def openEdges (states : ι → EventState) (p : ι × ι → Bool) (edges : List (ι × ι)) : Nat :=
  edges.countP fun d => p d && states d.1 != .DONE

/-- The edges whose parents are not done. -/
def remaining (s : EventSim ι) : Nat := openEdges s.states (fun _ => true) s.edges

def times (kind : RecordKind) (e : ι) (log : List (Record ι)) : Nat :=
  log.countP fun r => r.kind = kind ∧ r.event = e

/-- Whether the event ran since it was queued. -/
def active : EventState → Nat
  | .NONE | .QUEUED => 0
  | .RUNNING | .HELD | .DONE => 1

/-- Each event ran after its parents. -/
def Logged (spec : ι → EventSpec) (edges : List (ι × ι)) : List (Record ι) → Prop
  | [] => True
  | r :: log => (r.kind = .ran → ∀ d ∈ edges, d.2 = r.event →
      ∃ t, After spec log d.1 t ∧ t + (spec r.event).preDelay ≤ r.cycle) ∧ Logged spec edges log

/-- The events and the log, while `calls` are to come. -/
structure Core (spec : ι → EventSpec) (s : EventSim ι) (calls : List (Call ι)) : Prop where
  packed : ∀ e, ∃ cs, (s.events e).children.Packed cs ∧ cs.Perm (childrenOf s.edges e)
  parents : ∀ e, (s.events e).numParents =
    openEdges s.states (·.2 = e) s.edges + calls.countP fun c => c.1 = e
  ready : ∀ e, (s.events e).state ≠ .NONE → (s.events e).numParents = 0
  nodup : (s.queue.map Prod.snd).Nodup
  queued : ∀ c e, (c, e) ∈ s.queue ↔ (s.events e).state = .QUEUED ∧ (s.events e).privCycle = c
  notified : ∀ d ∈ s.edges, (s.events d.1).state = .DONE →
    ∃ t, After spec s.log d.1 t ∧ (t ≤ (s.events d.2).cycle ∨ (d.2, t) ∈ calls)
  started : ∀ d ∈ s.edges, (spec d.2).cls = .TimingEvent → (s.events d.2).state ≠ .NONE →
    ∃ t, After spec s.log d.1 t ∧ t + (spec d.2).preDelay ≤ (s.events d.2).privCycle
  logged : Logged spec s.edges s.log
  fresh : ∀ r ∈ s.log, (s.events r.event).state ≠ .NONE
  dones : ∀ e, times .done e s.log = if (s.events e).state = .DONE then 1 else 0
  rans : ∀ e, times .ran e s.log = times .requeued e s.log + active (s.events e).state

/-- Between the calls an event with parents waits for one, and a `DelayEvent` waits or is done. -/
structure Settled (spec : ι → EventSpec) (s : EventSim ι) : Prop where
  waiting : ∀ d ∈ s.edges, (s.events d.2).state = .NONE → (s.events d.2).numParents ≠ 0
  delays : ∀ e, (spec e).cls = .DelayEvent →
    (s.events e).state = .NONE ∨ (s.events e).state = .DONE

/-- What a change of the state of one event leaves in the log. -/
inductive Recorded (spec : ι → EventSpec) (s : EventSim ι) (e : ι) (state : EventState) :
    List (Record ι) → Prop
  | same (h : active state = active (s.events e).state) : Recorded spec s e state s.log
  | ran (c : Nat) (hold : active (s.events e).state = 0) (hnew : active state = 1)
      (hafter : ∀ d ∈ s.edges, d.2 = e →
        ∃ t, After spec s.log d.1 t ∧ t + (spec e).preDelay ≤ c) :
      Recorded spec s e state (⟨.ran, e, c⟩ :: s.log)
  | requeued (c : Nat) (hold : active (s.events e).state = 1) (hnew : active state = 0) :
      Recorded spec s e state (⟨.requeued, e, c⟩ :: s.log)

section

variable {spec : ι → EventSpec} {s s' : EventSim ι} {e e' : ι} {calls : List (Call ι)} {t : Nat}
  {log : List (Record ι)} {r : Record ι} {kind : RecordKind} {d : ι × ι}

theorem times_cons : times kind e (r :: log) =
    times kind e log + if r.kind = kind ∧ r.event = e then 1 else 0 := by
  rw [times, countP_cons, times]
  simp only [decide_eq_true_eq]

omit [DecidableEq ι] in
theorem openEdges_congr {st st' : ι → EventState} (h : ∀ e, st' e = .DONE ↔ st e = .DONE)
    (p : ι × ι → Bool) (edges : List (ι × ι)) : openEdges st' p edges = openEdges st p edges := by
  refine countP_congr fun d _ => ?_
  simp [h d.1]

omit [DecidableEq ι] in
theorem Recorded.newer {state : EventState} (h : Recorded spec s e state log) :
    ∃ newer, log = newer ++ s.log := by
  cases h with
  | same => exact ⟨[], rfl⟩
  | ran c => exact ⟨[_], rfl⟩
  | requeued c => exact ⟨[_], rfl⟩

omit [DecidableEq ι] in
theorem Recorded.logged {state : EventState} (h : Recorded spec s e state log)
    (hlogged : Logged spec s.edges s.log) : Logged spec s.edges log := by
  cases h with
  | same => exact hlogged
  | ran c hold hnew hafter => exact ⟨fun _ => hafter, hlogged⟩
  | requeued c hold hnew => exact ⟨by simp, hlogged⟩

omit [DecidableEq ι] in
theorem Recorded.mem {state : EventState} (h : Recorded spec s e state log) (hr : r ∈ log) :
    r.event = e ∨ r ∈ s.log := by
  cases h with
  | same => exact .inr hr
  | ran c | requeued c => exact (mem_cons.mp hr).imp_left fun heq => by rw [heq]

theorem Recorded.dones {state : EventState} (h : Recorded spec s e state log) (e' : ι) :
    times .done e' log = times .done e' s.log := by
  cases h with
  | same => rfl
  | ran c | requeued c => simp [times_cons]

/-- An event is as often active as it ran and was not queued again. -/
theorem Recorded.rans {state : EventState} (h : Recorded spec s e state log) {e' : ι}
    (hold : times .ran e' s.log = times .requeued e' s.log + active (s.events e').state) :
    times .ran e' log =
      times .requeued e' log + active (if e' = e then state else (s.events e').state) := by
  by_cases he : e' = e
  · subst he
    rw [if_pos rfl]
    cases h with
    | same hsame => rw [hold, hsame]
    | ran c h0 h1 => simp [times_cons, hold, h0, h1]
    | requeued c h1 h0 => simp [times_cons, hold, h0, h1]
  · rw [if_neg he]
    cases h with
    | same hsame => rw [hold]
    | ran c | requeued c => simp [times_cons, hold, Ne.symm he]

/-- No more parents are to come, so all of them are done. -/
theorem Core.parents_done (h : Core spec s calls) (hzero : (s.events e).numParents = 0)
    (hd : d ∈ s.edges) (hde : d.2 = e) :
    (s.events d.1).state = .DONE ∧ After spec s.log d.1 (s.events e).cycle := by
  have hparents := h.parents e
  rw [hzero] at hparents
  obtain ⟨hopen, hcalls⟩ := Nat.add_eq_zero_iff.mp hparents.symm
  have hdone : (s.events d.1).state = .DONE := by
    have hnot := countP_eq_zero.mp hopen d hd
    simpa [hde, states] using hnot
  obtain ⟨t, hafter, hle | hcall⟩ := h.notified d hd hdone
  · exact ⟨hdone, hafter.mono (hde ▸ hle)⟩
  · exact absurd hde (by simpa using countP_eq_zero.mp hcalls _ hcall)

/-- One event goes to another state than `DONE`. -/
theorem Core.change (h : Core spec s calls) {state : EventState} {c : Nat}
    {queue : List (Nat × ι)} (hnot : (s.events e).state ≠ .DONE)
    (hstate : state ≠ .NONE ∧ state ≠ .DONE) (hzero : (s.events e).numParents = 0)
    (hnodup : (queue.map Prod.snd).Nodup)
    (hqueue : ∀ c' e', (c', e') ∈ queue ↔
      if e' = e then state = .QUEUED ∧ c = c' else (c', e') ∈ s.queue)
    (hstarted : (spec e).cls = .TimingEvent → ∀ d ∈ s.edges, d.2 = e →
      ∃ t, After spec s.log d.1 t ∧ t + (spec e).preDelay ≤ c)
    (hlog : Recorded spec s e state log) :
    Core spec { s.set e { s.events e with state := state, privCycle := c } with
      queue := queue, log := log } calls := by
  obtain ⟨newer, hnewer⟩ := hlog.newer
  have hevents : ∀ e', update s.events e { s.events e with state := state, privCycle := c } e' =
      { s.events e' with
        state := if e' = e then state else (s.events e').state
        privCycle := if e' = e then c else (s.events e').privCycle } := by
    intro e'
    by_cases he : e' = e
    · subst he
      simp
    · simp [he]
  have hopen : ∀ e', (if e' = e then state else (s.events e').state) = .DONE ↔
      (s.events e').state = .DONE := by
    intro e'
    by_cases he : e' = e
    · simp [he, hnot, hstate.2]
    · rw [if_neg he]
  refine ⟨fun e' => ?_, fun e' => ?_, fun e' hne => ?_, hnodup, fun c' e' => ?_,
    fun d hd hdone => ?_, fun d hd hcls hne => ?_, hlog.logged h.logged, fun r hr => ?_,
    fun e' => ?_, fun e' => ?_⟩
  · simpa only [set, hevents] using h.packed e'
  · refine Eq.trans ?_ ((h.parents e').trans
      (congrArg (· + _) (openEdges_congr (fun e'' => ?_) _ _).symm))
    · simp only [set, hevents]
    · simpa only [states, set, hevents] using hopen e''
  · simp only [set, hevents] at hne ⊢
    by_cases he : e' = e
    · exact he ▸ hzero
    · exact h.ready e' (by rwa [if_neg he] at hne)
  · simp only [set, hevents]
    rw [hqueue]
    by_cases he : e' = e
    · simp [he]
    · simpa [he] using h.queued c' e'
  · simp only [set, hevents] at hdone ⊢
    obtain ⟨t, hafter, hle⟩ := h.notified d hd ((hopen d.1).mp hdone)
    exact ⟨t, hnewer ▸ hafter.append newer, hle⟩
  · simp only [set, hevents] at hne ⊢
    by_cases he : d.2 = e
    · obtain ⟨t, hafter, hle⟩ := hstarted (he ▸ hcls) d hd he
      exact ⟨t, hnewer ▸ hafter.append newer, by rwa [if_pos he, he]⟩
    · rw [if_neg he] at hne ⊢
      obtain ⟨t, hafter, hle⟩ := h.started d hd hcls hne
      exact ⟨t, hnewer ▸ hafter.append newer, hle⟩
  · simp only [set, hevents]
    by_cases he : r.event = e
    · rw [if_pos he]
      exact hstate.1
    · rw [if_neg he]
      exact h.fresh r ((hlog.mem hr).resolve_left he)
  · simp only [set, hevents]
    rw [hlog.dones, h.dones]
    exact if_congr (hopen e').symm rfl rfl
  · simpa only [set, hevents] using hlog.rans (h.rans e')

/-- A parent tells the event its cycle. -/
theorem Core.call (h : Core spec s ((e, t) :: calls)) (hpos : (s.events e).numParents ≠ 0) :
    Core spec (s.set e { s.events e with
      cycle := max (s.events e).cycle t
      numParents := (s.events e).numParents - 1 }) calls := by
  have hsame : ∀ e', ∃ cycle numParents, update s.events e { s.events e with
      cycle := max (s.events e).cycle t, numParents := (s.events e).numParents - 1 } e' =
      { s.events e' with cycle := cycle, numParents := numParents } ∧
      (s.events e').cycle ≤ cycle ∧ (e' = e → t ≤ cycle) ∧
      (s.events e').numParents = numParents + if e = e' then 1 else 0 := by
    intro e'
    by_cases he : e' = e
    · subst he
      exact ⟨_, _, update_self .., Nat.le_max_left .., fun _ => Nat.le_max_right ..,
        by simp; omega⟩
    · exact ⟨_, _, update_of_ne he .., Nat.le_refl _, fun heq => absurd heq he,
        by simp [Ne.symm he]⟩
  have hstate : ∀ e', (update s.events e { s.events e with
      cycle := max (s.events e).cycle t, numParents := (s.events e).numParents - 1 } e').state =
      (s.events e').state := by
    intro e'
    obtain ⟨_, _, hev, -⟩ := hsame e'
    rw [hev]
  refine ⟨fun e' => ?_, fun e' => ?_, fun e' hne => ?_, h.nodup, fun c' e' => ?_,
    fun d hd hdone => ?_, fun d hd hcls' hne => ?_, h.logged, fun r hr => ?_, fun e' => ?_,
    fun e' => ?_⟩
  all_goals simp only [set, hstate]
  · obtain ⟨_, _, hev, -⟩ := hsame e'
    simpa only [hev] using h.packed e'
  · obtain ⟨_, _, hev, -, -, hnum⟩ := hsame e'
    refine Eq.trans ?_ (congrArg (· + _)
      (openEdges_congr (fun e' => iff_of_eq (congrArg (· = _) (hstate e'))) _ _).symm)
    have hparents := h.parents e'
    rw [countP_cons, hnum] at hparents
    rw [hev]
    simp only [decide_eq_true_eq] at hparents
    exact Nat.add_right_cancel (hparents.trans (Nat.add_assoc ..).symm)
  · obtain ⟨_, _, hev, -, -, hnum⟩ := hsame e'
    have hzero := h.ready e' fun heq => hne ((hstate e').trans heq)
    rw [hev]
    simp only
    omega
  · obtain ⟨_, _, hev, -⟩ := hsame e'
    simpa only [hev] using h.queued c' e'
  · obtain ⟨t', hafter, hle⟩ := h.notified d hd ((hstate d.1).symm.trans hdone)
    obtain ⟨_, _, hev, hcycle, hmax, -⟩ := hsame d.2
    refine ⟨t', hafter, ?_⟩
    rw [hev]
    rcases hle with hle | hmem
    · exact .inl (Nat.le_trans hle hcycle)
    · refine (mem_cons.mp hmem).imp_left fun heq => ?_
      obtain ⟨hde, rfl⟩ := Prod.mk.inj heq
      exact hmax hde
  · obtain ⟨_, _, hev, -⟩ := hsame d.2
    simpa only [hev] using h.started d hd hcls' fun heq => hne ((hstate d.2).trans heq)
  · exact h.fresh r hr
  · exact h.dones e'
  · exact h.rans e'

/-- The edges whose parent gets done. -/
theorem openEdges_done {st st' : ι → EventState} (p : ι × ι → Bool) (edges : List (ι × ι))
    (hst : st e ≠ .DONE) (hst' : ∀ e', st' e' = .DONE ↔ e' = e ∨ st e' = .DONE) :
    openEdges st p edges = openEdges st' p edges + edges.countP fun d => p d && d.1 = e := by
  induction edges with
  | nil => rfl
  | cons d edges ih =>
    simp only [openEdges, countP_cons] at ih ⊢
    have hd := hst' d.1
    by_cases he : d.1 = e
    · have h1 : st d.1 ≠ .DONE := he ▸ hst
      have h2 : st' d.1 = .DONE := hd.mpr (.inl he)
      simp only [he, Bool.and_eq_true, bne_iff_ne, decide_eq_true_eq] at h1 h2 ih ⊢
      simp only [h1, h2, ne_eq, not_true, not_false_iff, and_false, and_true, if_false]
      omega
    · have h12 : st' d.1 = .DONE ↔ st d.1 = .DONE := hd.trans (or_iff_right he)
      simp only [Bool.and_eq_true, bne_iff_ne, ne_eq, h12, he, decide_false, Bool.false_eq_true,
        and_false, if_false]
      omega

theorem countP_childrenOf (p : ι → Bool) (edges : List (ι × ι)) (e : ι) :
    (childrenOf edges e).countP p = edges.countP fun d => p d.2 && d.1 = e := by
  rw [childrenOf, countP_map, countP_filter]
  rfl

theorem setState_events (s : EventSim ι) (e : ι) (state : EventState) (e' : ι) :
    (s.setState e state).events e' =
      { s.events e' with state := if e' = e then state else (s.events e').state } := by
  by_cases he : e' = e
  · subst he
    simp [setState, set]
  · simp [setState, set, he]

@[simp]
theorem setState_edges (s : EventSim ι) (e : ι) (state : EventState) :
    (s.setState e state).edges = s.edges := rfl

@[simp]
theorem setState_log (s : EventSim ι) (e : ι) (state : EventState) :
    (s.setState e state).log = s.log := rfl

theorem done_iff (s : EventSim ι) (e e' : ι) :
    ((s.setState e .DONE).events e').state = .DONE ↔ e' = e ∨ (s.events e').state = .DONE := by
  by_cases he : e' = e <;> simp [setState_events, he]

/-- An event that runs gets done: the calls of its children are to come. -/
theorem Core.finished (h : Core spec s calls) (hrun : (s.events e).state = .RUNNING) (c : Nat)
    {cs : List ι} (hperm : cs.Perm (childrenOf s.edges e)) :
    Core spec ((s.setState e .DONE).record .done e c)
      ((cs.map fun c' => (c', c + (spec e).postDelay)) ++ calls) := by
  have hother : ∀ e' st, st ≠ .RUNNING → st ≠ .DONE →
      (((s.setState e .DONE).events e').state = st ↔ (s.events e').state = st) := by
    intro e' st h1 h2
    by_cases he : e' = e
    · simp [setState_events, he, hrun, h1.symm, h2.symm]
    · simp [setState_events, he]
  have hnot : s.states e ≠ .DONE := by simp [states, hrun]
  refine ⟨fun e' => ?_, fun e' => ?_, fun e' hne => ?_, h.nodup, fun c' e' => ?_,
    fun d hd hdone => ?_, fun d hd hcls hne => ?_, ⟨by simp, h.logged⟩, fun r hr => ?_,
    fun e' => ?_, fun e' => ?_⟩
  · simpa only [record, setState_events, setState_edges] using h.packed e'
  · have hparents := h.parents e'
    rw [openEdges_done _ _ hnot (done_iff s e), Nat.add_assoc] at hparents
    rw [countP_append, countP_map, hperm.countP_eq, countP_childrenOf]
    simp only [record, setState_events, setState_edges]
    exact hparents
  · have hzero := h.ready e' fun heq => hne ((hother e' .NONE (by simp) (by simp)).mpr heq)
    simpa only [record, setState_events] using hzero
  · refine (h.queued c' e').trans (and_congr (hother e' .QUEUED (by simp) (by simp)).symm ?_)
    simp only [record, setState_events]
  · simp only [record, setState_events]
    rcases (done_iff s e d.1).mp hdone with rfl | hold
    · refine ⟨c + (spec d.1).postDelay, ⟨c, mem_cons_self .., Nat.le_refl _⟩, .inr ?_⟩
      have hmem : d.2 ∈ cs := hperm.mem_iff.mpr
        (mem_map_of_mem (mem_filter.mpr ⟨hd, by simp⟩))
      exact mem_append_left _ (mem_map_of_mem hmem)
    · obtain ⟨t, hafter, hle⟩ := h.notified d hd hold
      exact ⟨t, hafter.append [_], hle.imp_right (mem_append_right _)⟩
  · obtain ⟨t, hafter, hle⟩ := h.started d hd hcls fun heq =>
      hne ((hother d.2 .NONE (by simp) (by simp)).mpr heq)
    simp only [record, setState_events]
    exact ⟨t, hafter.append [_], hle⟩
  · refine fun heq => ?_
    have hnone := (hother r.event .NONE (by simp) (by simp)).mp heq
    rcases mem_cons.mp hr with rfl | hr
    · simp [hrun] at hnone
    · exact h.fresh r hr hnone
  · have hold := h.dones e'
    simp only [record, setState_events, setState_log, times_cons]
    by_cases he : e' = e
    · subst he
      simp [hold, hrun]
    · simp [hold, he, Ne.symm he]
  · have hold := h.rans e'
    simp only [record, setState_events, setState_log, times_cons]
    by_cases he : e' = e
    · subst he
      simpa [active, hrun] using hold
    · simpa [he] using hold

/-- `done` of an event that runs: its children get a call each. -/
theorem Core.finish (h : Core spec s calls) (hrun : (s.events e).state = .RUNNING) (c : Nat) :
    ∃ s' more, s.finish spec e c = some (s', more) ∧ Core spec s' (more ++ calls) ∧
      s'.edges = s.edges ∧ (∀ e', e' ≠ e → s'.events e' = s.events e') ∧
      (s'.events e).state = .DONE ∧
      s.remaining = s'.remaining + more.length := by
  obtain ⟨cs, hpacked, hperm⟩ := h.packed e
  have hnot : s.states e ≠ .DONE := by simp [states, hrun]
  refine ⟨(s.setState e .DONE).record .done e c, cs.map fun c' => (c', c + (spec e).postDelay),
    by rw [EventSim.finish, if_pos hrun, hpacked.visitChildren]; rfl, h.finished hrun c hperm, rfl,
    fun e' he' => update_of_ne he' _ _, by simp [record, setState, set], ?_⟩
  rw [remaining, openEdges_done _ _ hnot (done_iff s e), length_map, hperm.length_eq,
    ← countP_true, countP_childrenOf]
  rfl

structure Inv (spec : ι → EventSpec) (s : EventSim ι) (calls : List (Call ι)) : Prop where
  core : Core spec s calls
  settled : s.Settled spec

omit [DecidableEq ι] in
/-- Only one event changes. -/
theorem Settled.change (h : s.Settled spec) (hedges : s'.edges = s.edges)
    (hother : ∀ e', e' ≠ e → s'.events e' = s.events e')
    (he : (s'.events e).state = .NONE → (s'.events e).numParents ≠ 0)
    (hdelay : (spec e).cls = .DelayEvent →
      (s'.events e).state = .NONE ∨ (s'.events e).state = .DONE) : s'.Settled spec := by
  refine ⟨fun d hd hnone => ?_, fun e' hcls => ?_⟩
  · by_cases hde : d.2 = e
    · rw [hde] at hnone ⊢
      exact he hnone
    · rw [hother d.2 hde] at hnone ⊢
      exact h.waiting d (hedges ▸ hd) hnone
  · by_cases hee : e' = e
    · exact hee ▸ hdelay (hee ▸ hcls)
    · rw [hother e' hee]
      exact h.delays e' hcls

omit [DecidableEq ι] in
theorem remaining_change (hedges : s'.edges = s.edges)
    (hother : ∀ e', e' ≠ e → s'.events e' = s.events e')
    (he : (s'.events e).state = .DONE ↔ (s.events e).state = .DONE) :
    s'.remaining = s.remaining := by
  rw [remaining, remaining, hedges]
  refine openEdges_congr (fun e' => ?_) _ _
  by_cases hee : e' = e
  · rw [hee]
    exact he
  · rw [states, hother e' hee, states]

/-- A `TimingEvent` whose last parent is done is queued. -/
theorem Core.wake (h : Core spec s calls) (hcls : (spec e).cls = .TimingEvent)
    (hnone : (s.events e).state = .NONE) (hzero : (s.events e).numParents = 0) {c : Nat}
    (hc : ∀ d ∈ s.edges, d.2 = e → ∃ t, After spec s.log d.1 t ∧ t + (spec e).preDelay ≤ c) :
    ∃ s', (s.setState e .QUEUED).enqueue e c = some s' ∧ Core spec s' calls ∧
      s'.edges = s.edges ∧ (∀ e', e' ≠ e → s'.events e' = s.events e') ∧
      (s'.events e).state = .QUEUED := by
  have hnew : ∀ c', (c', e) ∉ s.queue := fun c' hmem => by
    have hqueued := ((h.queued c' e).mp hmem).1
    simp [hnone] at hqueued
  refine ⟨{ s.set e { s.events e with state := .QUEUED, privCycle := c } with
      queue := (c, e) :: s.queue, log := s.log }, ?_, ?_, rfl, fun e' he' => update_of_ne he' ..,
    by simp [set]⟩
  · simp [enqueue, setState, set, hzero]
  · refine h.change (by simp [hnone]) (by simp) hzero ?_ (fun c' e' => ?_)
      (fun _ => hc) (.same (by simp [active, hnone]))
    · simpa using ⟨fun c' => hnew c', h.nodup⟩
    · by_cases he : e' = e
      · subst he
        simp [hnew, eq_comm]
      · simp [he]

/-- A `DelayEvent` whose last parent is done is done itself. -/
theorem Core.pass (h : Core spec s calls) (hcls : (spec e).cls = .DelayEvent)
    (hnone : (s.events e).state = .NONE) (hzero : (s.events e).numParents = 0) :
    ∃ s' more, s.pass spec e = some (s', more) ∧ Core spec s' (more ++ calls) ∧
      s'.edges = s.edges ∧ (∀ e', e' ≠ e → s'.events e' = s.events e') ∧
      (s'.events e).state = .DONE ∧ s.remaining = s'.remaining + more.length := by
  have hcore : Core spec ((s.setState e .RUNNING).record .ran e
      ((s.events e).cycle + (spec e).preDelay)) calls := by
    refine h.change (by simp [hnone]) (by simp) hzero h.nodup (fun c' e' => ?_)
      (by simp [hcls]) (.ran _ (by simp [active, hnone]) rfl
        fun d hd hde => ⟨_, (h.parents_done hzero hd hde).2, Nat.le_refl _⟩)
    show (c', e') ∈ s.queue ↔ _
    by_cases he : e' = e
    · simp [he, h.queued, hnone]
    · simp [he]
  have hrun : (((s.setState e .RUNNING).record .ran e
      ((s.events e).cycle + (spec e).preDelay)).events e).state = .RUNNING := by
    simp [record, setState, set]
  obtain ⟨s', more, hfinish, hcore', hedges, hevents, hdone, hcount⟩ :=
    hcore.finish hrun ((s.events e).cycle + (spec e).preDelay)
  refine ⟨s', more, hfinish, hcore', hedges, fun e' he' => ?_, hdone, ?_⟩
  · rw [hevents e' he']
    exact update_of_ne he' ..
  · have hbefore : ((s.setState e .RUNNING).record .ran e
        ((s.events e).cycle + (spec e).preDelay)).remaining = s.remaining :=
      remaining_change rfl (fun e' he' => update_of_ne he' ..) (by simp [hrun, hnone])
    rw [← hbefore, hcount]

/-- A call of `parentDone`. -/
theorem Inv.parentDone (h : Inv spec s ((e, t) :: calls)) :
    ∃ s' more, s.parentDone spec e t = some (s', more) ∧ Inv spec s' (more ++ calls) ∧
      s'.edges = s.edges ∧ s.remaining = s'.remaining + more.length := by
  have hpos : (s.events e).numParents ≠ 0 := by
    rw [h.core.parents e, countP_cons]
    simp
  have hnone : (s.events e).state = .NONE := by
    by_contra hne
    exact hpos (h.core.ready e hne)
  have hcore := h.core.call hpos
  have hother : ∀ e', e' ≠ e → (s.set e { s.events e with
      cycle := max (s.events e).cycle t
      numParents := (s.events e).numParents - 1 }).events e' = s.events e' :=
    fun e' he' => update_of_ne he' ..
  have hstate : ((s.set e { s.events e with
      cycle := max (s.events e).cycle t
      numParents := (s.events e).numParents - 1 }).events e).state = .NONE := by
    simpa [set] using hnone
  rw [EventSim.parentDone, if_neg hpos]
  generalize hs1 : s.set e { s.events e with
    cycle := max (s.events e).cycle t, numParents := (s.events e).numParents - 1 } = s1 at *
  have hedges : s1.edges = s.edges := by rw [← hs1, set]
  have hremaining := remaining_change hedges hother (by simp [hstate, hnone])
  by_cases hzero : (s1.events e).numParents = 0
  · simp only [if_pos hzero]
    cases hcls : (spec e).cls with
    | TimingEvent =>
      obtain ⟨s', hs', hcore', hedges', hevents, hqueued⟩ := hcore.wake hcls hstate hzero
        fun d hd hde => ⟨_, (hcore.parents_done hzero hd hde).2, Nat.le_refl _⟩
      have hall : ∀ e', e' ≠ e → s'.events e' = s.events e' :=
        fun e' he' => (hevents e' he').trans (hother e' he')
      refine ⟨s', [], ?_, ⟨hcore', h.settled.change (hedges'.trans hedges) hall
        (by simp [hqueued]) (by simp [hcls])⟩, hedges'.trans hedges, ?_⟩
      · simp only [EventSim.wake, if_pos hstate, hs', Option.map_some]
      · exact (remaining_change (hedges'.trans hedges) hall (by simp [hqueued, hnone])).symm
    | DelayEvent =>
      obtain ⟨s', more, hs', hcore', hedges', hevents, hdone, hcount⟩ :=
        hcore.pass hcls hstate hzero
      exact ⟨s', more, hs', ⟨hcore', h.settled.change (hedges'.trans hedges)
        (fun e' he' => (hevents e' he').trans (hother e' he')) (by simp [hdone])
        fun _ => .inr hdone⟩, hedges'.trans hedges, hremaining.symm.trans hcount⟩
  · rw [if_neg hzero]
    exact ⟨s1, [], rfl, ⟨hcore, h.settled.change hedges hother (fun _ => hzero)
      fun _ => .inl hstate⟩, hedges, hremaining.symm⟩

/-- The calls of `done`, with those of the `DelayEvent`s among them, all return. -/
theorem Inv.callAll : ∀ {fuel : Nat} {calls : List (Call ι)} {s : EventSim ι}, Inv spec s calls →
    calls.length + s.remaining ≤ fuel →
    ∃ s', s.callAll spec fuel calls = some s' ∧ Inv spec s' [] ∧ s'.edges = s.edges
  | fuel, [], s, h, _ => ⟨s, by rw [EventSim.callAll], h, rfl⟩
  | 0, _ :: _, _, _, hfuel => absurd hfuel (by simp)
  | fuel + 1, (e, t) :: calls, s, h, hfuel => by
    obtain ⟨s1, more, hcall, h1, hedges, hcount⟩ := h.parentDone
    obtain ⟨s2, hrest, h2, hedges2⟩ := h1.callAll (show _ ≤ fuel by
      rw [length_append]
      rw [length_cons] at hfuel
      omega)
    exact ⟨s2, by rw [EventSim.callAll, hcall]; exact hrest, h2, hedges2.trans hedges⟩

/-! ### The operations -/

theorem Inv.done (h : Inv spec s []) (hrun : (s.events e).state = .RUNNING) (c : Nat) :
    ∃ s', s.done spec e c = some s' ∧ Inv spec s' [] := by
  obtain ⟨s1, more, hfinish, hcore, hedges, hother, hdone, hcount⟩ := h.core.finish hrun c
  have hsettled := h.settled.change hedges hother (by simp [hdone]) fun _ => .inr hdone
  have hle : s.remaining ≤ s.edges.length := countP_le_length
  obtain ⟨s', hcall, hinv, -⟩ := Inv.callAll ⟨hcore, hsettled⟩
    (show _ ≤ s1.edges.length by rw [append_nil, hedges]; omega)
  refine ⟨s', ?_, hinv⟩
  rw [EventSim.done, hfinish, Option.bind_some, ← append_nil more]
  exact hcall

/-- A `TimingEvent` without parents is queued by hand. -/
theorem Inv.queueFirst (h : Inv spec s []) (hcls : (spec e).cls = .TimingEvent)
    (hnone : (s.events e).state = .NONE) (hzero : (s.events e).numParents = 0) (c : Nat) :
    ∃ s', s.queueFirst e c = some s' ∧ Inv spec s' [] := by
  obtain ⟨s', hs', hcore, hedges, hother, hqueued⟩ := h.core.wake hcls hnone hzero
    fun d hd hde => absurd (hde ▸ hzero) (h.settled.waiting d hd (hde ▸ hnone))
  exact ⟨s', by rw [EventSim.queueFirst, if_pos ⟨hnone, hzero⟩, hs'], hcore,
    h.settled.change hedges hother (by simp [hqueued]) (by simp [hcls])⟩

omit [DecidableEq ι] in
/-- An event that is neither waiting nor done is a `TimingEvent`. -/
theorem Settled.timing (h : s.Settled spec) (hnone : (s.events e).state ≠ .NONE)
    (hdone : (s.events e).state ≠ .DONE) : (spec e).cls = .TimingEvent := by
  cases hcls : (spec e).cls with
  | TimingEvent => rfl
  | DelayEvent => exact absurd (h.delays e hcls) (by simp [hnone, hdone])

/-- A `TimingEvent` goes on, and is not queued. -/
theorem Inv.goesOn (h : Inv spec s []) {state : EventState} {queue : List (Nat × ι)}
    (hnone : (s.events e).state ≠ .NONE) (hdone : (s.events e).state ≠ .DONE)
    (hactive : active state = 1) (hstate : state ≠ .DONE)
    (hnodup : (queue.map Prod.snd).Nodup)
    (hqueue : ∀ c' e', (c', e') ∈ queue ↔ e' ≠ e ∧ (c', e') ∈ s.queue)
    (hlog : Recorded spec s e state log) :
    Inv spec { s.setState e state with queue := queue, log := log } [] := by
  have hcls := h.settled.timing hnone hdone
  have hnew : state ≠ .NONE := by
    rintro rfl
    simp [active] at hactive
  refine ⟨h.core.change hdone ⟨hnew, hstate⟩ (h.core.ready e hnone) hnodup (fun c' e' => ?_)
    (fun _ d hd hde => ?_) hlog, h.settled.change rfl (fun e' he' => update_of_ne he' ..) ?_
    (by simp [hcls])⟩
  · rw [hqueue]
    have hnot : state ≠ .QUEUED := by
      rintro rfl
      simp [active] at hactive
    by_cases he : e' = e <;> simp [he, hnot]
  · have hstarted := h.core.started d hd (hde ▸ hcls) (hde ▸ hnone)
    rwa [hde] at hstarted
  · simp [setState, set, hnew]

theorem Inv.run (h : Inv spec s []) {c : Nat} (hmem : (c, e) ∈ s.queue)
    (hmin : (spec e).minStartCycle ≤ c) : ∃ s', s.run spec e c = some s' ∧ Inv spec s' [] := by
  obtain ⟨hqueued, hpriv⟩ := (h.core.queued c e).mp hmem
  have hcls := h.settled.timing (e := e) (by simp [hqueued]) (by simp [hqueued])
  refine ⟨_, if_pos ⟨hmem, .inr hqueued, hmin, hcls⟩, h.goesOn (by simp [hqueued])
    (by simp [hqueued]) rfl (by simp) (h.core.nodup.sublist (erase_sublist.map _))
    (fun c' e' => ?_) (.ran c (by simp [hqueued, active]) rfl fun d hd hde => ?_)⟩
  · rw [h.core.nodup.of_map.mem_erase_iff]
    refine and_congr_left fun hmem' => not_congr ⟨fun heq => (Prod.mk.inj heq).2, ?_⟩
    rintro rfl
    rw [← hpriv, ((h.core.queued c' e').mp hmem').2]
  · have hstarted := h.core.started d hd (hde ▸ hcls) (by simp [hde, hqueued])
    rwa [hde, hpriv] at hstarted

/-- What is queued are the events in state `QUEUED`. -/
theorem Core.not_queued (h : Core spec s calls) (hstate : (s.events e).state ≠ .QUEUED) (c : Nat)
    (e' : ι) : (c, e') ∈ s.queue ↔ e' ≠ e ∧ (c, e') ∈ s.queue := by
  refine (and_iff_right_of_imp ?_).symm
  rintro hmem rfl
  exact hstate ((h.queued c e').mp hmem).1

theorem Inv.hold (h : Inv spec s []) (hrun : (s.events e).state = .RUNNING) :
    ∃ s', s.hold e = some s' ∧ Inv spec s' [] :=
  ⟨_, if_pos hrun, h.goesOn (by simp [hrun]) (by simp [hrun]) rfl (by simp) h.core.nodup
    (h.core.not_queued (by simp [hrun])) (.same (by simp [hrun, active]))⟩

theorem Inv.release (h : Inv spec s []) (hheld : (s.events e).state = .HELD) :
    ∃ s', s.release e = some s' ∧ Inv spec s' [] :=
  ⟨_, if_pos hheld, h.goesOn (by simp [hheld]) (by simp [hheld]) rfl (by simp) h.core.nodup
    (h.core.not_queued (by simp [hheld])) (.same (by simp [hheld, active]))⟩

theorem Inv.requeue (h : Inv spec s [])
    (hstate : (s.events e).state = .RUNNING ∨ (s.events e).state = .HELD) {c : Nat}
    (hc : (s.events e).privCycle ≤ c) : ∃ s', s.requeue e c = some s' ∧ Inv spec s' [] := by
  have hnone : (s.events e).state ≠ .NONE := by rcases hstate with h | h <;> simp [h]
  have hdone : (s.events e).state ≠ .DONE := by rcases hstate with h | h <;> simp [h]
  have hqueued : (s.events e).state ≠ .QUEUED := by rcases hstate with h | h <;> simp [h]
  have hcls := h.settled.timing hnone hdone
  have hzero := h.core.ready e hnone
  have hnew : ∀ c', (c', e) ∉ s.queue := fun c' hmem => hqueued ((h.core.queued c' e).mp hmem).1
  refine ⟨{ s.set e { s.events e with state := .QUEUED, privCycle := c } with
      queue := (c, e) :: s.queue, log := ⟨.requeued, e, c⟩ :: s.log }, ?_, ?_, ?_⟩
  · rw [EventSim.requeue, if_pos ⟨hzero, hstate⟩]
    simp [enqueue, record, setState, set, hzero]
  · refine h.core.change hdone (by simp) hzero ?_ (fun c' e' => ?_) (fun _ d hd hde => ?_)
      (.requeued c ?_ rfl)
    · simpa using ⟨hnew, h.core.nodup⟩
    · by_cases he : e' = e
      · subst he
        simp [hnew, eq_comm]
      · simp [he]
    · obtain ⟨t, hafter, hle⟩ := h.core.started d hd (hde ▸ hcls) (hde ▸ hnone)
      rw [hde] at hle
      exact ⟨t, hafter, Nat.le_trans hle hc⟩
    · rcases hstate with h | h <;> simp [h, active]
  · exact h.settled.change rfl (fun e' he' => update_of_ne he' ..) (by simp [set]) (by simp [hcls])

theorem addChild_eq (hparent : (s.events e).state = .NONE ∨ (s.events e).state = .QUEUED)
    (hchild : (s.events e').state = .NONE) :
    ∃ s', s.addChild e e' = some s' ∧ s'.edges = (e, e') :: s.edges ∧ s'.queue = s.queue ∧
      s'.log = s.log ∧ ∀ x, s'.events x = { s.events x with
        children := if x = e then (s.events x).children.addChild e' else (s.events x).children
        numParents := (s.events x).numParents + if e' = x then 1 else 0 } := by
  refine ⟨_, if_pos ⟨hparent, hchild⟩, rfl, rfl, rfl, fun x => ?_⟩
  by_cases hx : x = e'
  · subst hx
    by_cases hxe : x = e <;> simp [set, hxe]
  · by_cases hxe : x = e
    · subst hxe
      simp [set, hx, Ne.symm hx]
    · simp [set, hxe, hx, Ne.symm hx]

omit [DecidableEq ι] in
/-- An edge to an event that never ran. -/
theorem Logged.addEdge {edges : List (ι × ι)} : ∀ {log : List (Record ι)},
    Logged spec edges log → (∀ r ∈ log, r.event ≠ e') → Logged spec ((e, e') :: edges) log
  | [], _, _ => trivial
  | r :: log, ⟨hran, hrest⟩, hne => by
    refine ⟨fun hkind d hd hde => ?_, hrest.addEdge fun r hr => hne r (mem_cons_of_mem _ hr)⟩
    rcases mem_cons.mp hd with rfl | hd
    · exact absurd hde.symm (hne r (mem_cons_self ..))
    · exact hran hkind d hd hde

/-- The parent gets a child, and the child a parent, before either has run. -/
theorem Inv.addChild (h : Inv spec s [])
    (hparent : (s.events e).state = .NONE ∨ (s.events e).state = .QUEUED)
    (hchild : (s.events e').state = .NONE) :
    ∃ s', s.addChild e e' = some s' ∧ Inv spec s' [] := by
  obtain ⟨s', hs', hedges, hqueue, hlog, hevents⟩ := addChild_eq hparent hchild
  have hnotdone : (s.events e).state ≠ .DONE := by rcases hparent with h | h <;> simp [h]
  have hstates : s'.states = s.states := funext fun x => by rw [states, hevents, states]
  refine ⟨s', hs', ⟨⟨fun x => ?_, fun x => ?_, fun x hne => ?_, ?_, fun c x => ?_,
    fun d hd hdone => ?_, fun d hd hcls hne => ?_, ?_, fun r hr => ?_, fun x => ?_, fun x => ?_⟩,
    fun d hd hnone => ?_, fun x hcls => ?_⟩⟩
  all_goals simp only [hevents, hedges, hqueue, hlog, hstates] at *
  · obtain ⟨cs, hpacked, hperm⟩ := h.core.packed x
    by_cases hx : x = e
    · obtain ⟨cs', hpacked', hperm'⟩ := hpacked.addChild e'
      refine ⟨cs', by rwa [if_pos hx], hperm'.trans ?_⟩
      simpa [childrenOf, hx] using hperm
    · refine ⟨cs, by rwa [if_neg hx], ?_⟩
      simpa [childrenOf, Ne.symm hx] using hperm
  · have hparents := h.core.parents x
    simp only [openEdges, countP_cons, countP_nil, states] at hparents ⊢
    rw [hparents]
    simp [hnotdone]
  · have hx : ¬e' = x := fun hx => hne (hx ▸ hchild)
    rw [if_neg hx]
    exact h.core.ready x hne
  · exact h.core.nodup
  · exact h.core.queued c x
  · rcases mem_cons.mp hd with rfl | hd
    · exact absurd hdone hnotdone
    · exact h.core.notified d hd hdone
  · rcases mem_cons.mp hd with rfl | hd
    · exact absurd hchild hne
    · exact h.core.started d hd hcls hne
  · exact h.core.logged.addEdge fun r hr heq => h.core.fresh r hr (heq ▸ hchild)
  · exact h.core.fresh r hr
  · exact h.core.dones x
  · exact h.core.rans x
  · rcases mem_cons.mp hd with rfl | hd
    · simp
    · have hold := h.settled.waiting d hd hnone
      omega
  · exact h.settled.delays x hcls

theorem init_inv (cycle : ι → Nat) : Inv spec (init cycle) [] := by
  refine ⟨⟨fun e => ⟨[], .none _ _, .rfl⟩, fun e => rfl, fun e he => rfl, nodup_nil,
    by simp [init], by simp [init], by simp [init], trivial, by simp [init], by simp [init, times],
    by simp [init, times, active]⟩, by simp [init], fun e _ => .inl rfl⟩

theorem step_inv (op : EventOp ι) (s : EventSim ι) (h : Inv spec s []) (hop : Allowed spec op s) :
    ∃ s', step spec op s = some s' ∧ Inv spec s' [] := by
  cases op with
  | addChild e childEv => exact h.addChild hop.1 hop.2
  | queue e cycle => exact h.queueFirst hop.1 hop.2.1 hop.2.2 cycle
  | run e cycle => exact h.run hop.1 hop.2
  | hold e => exact h.hold hop
  | release e => exact h.release hop
  | requeue e nextCycle => exact h.requeue hop.1 hop.2
  | done e doneCycle => exact h.done hop.1 doneCycle

end

end EventSim

end Doppelganger.Weave
