import Doppelganger.Dram.Ticks

/-! The `SchedEvent`s: the one that is queued is `nextSchedEvent`, and is pending at the memory
cycle `nextSchedCycle`; the ones that were annulled are pending, too, until they are recycled. -/

namespace Doppelganger.Dram

namespace DDRMemory

/-- The events that `tick` and `enqueue` need. -/
structure Events (cfg : Config) (s : DDRMemory) : Prop where
  queued : ∀ ev, s.schedEvents ev = .QUEUED ↔ s.nextSchedEvent = some ev
  idle : s.nextSchedEvent = none → s.nextSchedCycle = none
  fires : ∀ ev, s.nextSchedEvent = some ev →
    ∃ cycle, (ev, cycle) ∈ s.pending ∧ s.nextSchedCycle = some (cfg.sysToMemCycle cycle)
  pending : ∀ ev, ev ∈ s.pending.map Prod.fst ↔ s.schedEvents ev ≠ .IDLE
  states : ∀ ev, s.schedEvents ev ≠ .RUNNING
  nodup : (s.pending.map Prod.fst).Nodup
  free : s.eventFreelist.Nodup
  unused : ∀ ev ∈ s.eventFreelist, s.schedEvents ev = .IDLE ∧ ev < s.numSchedEvents
  fresh : ∀ ev, s.numSchedEvents ≤ ev → s.schedEvents ev = .IDLE
  later : ∀ e ∈ s.pending, s.curCycle ≤ e.2

/-- No event is next. -/
def unscheduled (s : DDRMemory) : DDRMemory :=
  { s with nextSchedEvent := none, nextSchedCycle := none }

variable {cfg : Config} {s s' : DDRMemory} {ev cycle t sys : Nat}

/-- Parts that do not change when events do. -/
structure SameParts (s s' : DDRMemory) : Prop where
  ctl : s'.ctl = s.ctl
  numRequests : s'.numRequests = s.numRequests
  refreshCycle : s'.refreshCycle = s.refreshCycle

theorem init_events (cfg : Config) : (init cfg).Events cfg := by
  constructor <;> simp [init]

/-- An idle event becomes the next one. -/
theorem Events.schedule (h : s.unscheduled.Events cfg) (hidle : s.schedEvents ev = .IDLE)
    (hfree : ev ∉ s.eventFreelist) (hnum : ev < s.numSchedEvents) (hcycle : s.curCycle ≤ cycle) :
    Events cfg { s with
      schedEvents := Function.update s.schedEvents ev .QUEUED
      pending := s.pending ++ [(ev, cycle)]
      nextSchedEvent := some ev
      nextSchedCycle := some (cfg.sysToMemCycle cycle) } := by
  have hnone : ∀ ev', s.schedEvents ev' ≠ .QUEUED := fun ev' hq => by
    have hnext := (h.queued ev').mp hq
    cases hnext
  constructor
  case queued =>
    intro ev'
    dsimp only
    by_cases heq : ev' = ev
    · subst heq
      simp
    · rw [Function.update_of_ne heq]
      exact iff_of_false (hnone ev') fun hsome => heq (Option.some.inj hsome).symm
  case idle => exact fun hnext => absurd hnext (Option.some_ne_none ev)
  case fires =>
    intro ev' hev'
    cases hev'
    exact ⟨cycle, by simp, rfl⟩
  case pending =>
    intro ev'
    have hold := h.pending ev'
    by_cases heq : ev' = ev
    · subst heq
      simp
    · dsimp only
      rw [Function.update_of_ne heq, List.map_append, List.mem_append]
      refine Iff.trans (or_iff_left ?_) hold
      simpa using heq
  case states =>
    intro ev'
    by_cases heq : ev' = ev
    · subst heq
      simp
    · dsimp only
      rw [Function.update_of_ne heq]
      exact h.states ev'
  case nodup =>
    dsimp only
    rw [List.map_append]
    refine List.nodup_append.mpr ⟨h.nodup, by simp, fun a ha b hb => ?_⟩
    simp only [List.map_cons, List.map_nil, List.mem_singleton] at hb
    rintro rfl
    exact (h.pending a).mp ha (hb ▸ hidle)
  case free => exact h.free
  case unused =>
    intro ev' hev'
    dsimp only
    rw [Function.update_of_ne fun heq : ev' = ev => hfree (heq ▸ hev')]
    exact h.unused ev' hev'
  case fresh =>
    intro ev' hev'
    dsimp only at hev' ⊢
    rw [Function.update_of_ne (by omega)]
    exact h.fresh ev' hev'
  case later =>
    intro e he
    obtain he | he := List.mem_append.mp he
    · exact h.later e he
    · rw [List.mem_singleton] at he
      rw [he]
      exact hcycle

theorem Events.unscheduled_eq (h : s.Events cfg) (hnext : s.nextSchedEvent = none) :
    s.unscheduled = s := by
  have hcycle := h.idle hnext
  cases s
  cases hnext
  cases hcycle
  rfl

/-- Another event that is idle stays idle. -/
theorem update_idle {states : Nat → SchedState} {ev ev' : Nat} (hidle : states ev' = .IDLE)
    (hev : states ev ≠ .IDLE) (state : SchedState) :
    Function.update states ev state ev' = .IDLE := by
  rw [Function.update_of_ne fun heq : ev' = ev => hev (heq ▸ hidle)]
  exact hidle

/-- The next event is annulled. -/
theorem Events.annul (h : s.Events cfg) :
    ∃ s', s.nextSchedEvent.elim (some s) s.annul = some s' ∧ s'.unscheduled.Events cfg ∧
      SameParts s s' ∧ s'.curCycle = s.curCycle := by
  cases hnext : s.nextSchedEvent with
  | none =>
    refine ⟨s, rfl, ?_, ⟨rfl, rfl, rfl⟩, rfl⟩
    rw [h.unscheduled_eq hnext]
    exact h
  | some ev =>
    have hstate := (h.queued ev).mpr hnext
    refine ⟨{ s with schedEvents := Function.update s.schedEvents ev .ANNULLED }, if_pos hstate, ?_,
      ⟨rfl, rfl, rfl⟩, rfl⟩
    have hbusy : s.schedEvents ev ≠ .IDLE := by
      rw [hstate]
      decide
    unfold unscheduled
    constructor
    case queued =>
      intro ev'
      refine iff_of_false ?_ (Option.some_ne_none ev').symm
      by_cases heq : ev' = ev
      · subst heq
        simp
      · dsimp only
        rw [Function.update_of_ne heq, h.queued, hnext]
        exact fun hsome => heq (Option.some.inj hsome).symm
    case idle => exact fun _ => rfl
    case fires => exact fun ev' hev' => absurd hev'.symm (Option.some_ne_none ev')
    case pending =>
      intro ev'
      have hold := h.pending ev'
      by_cases heq : ev' = ev
      · subst heq
        rw [hstate] at hold
        simpa using hold
      · dsimp only
        rw [Function.update_of_ne heq]
        exact hold
    case states =>
      intro ev'
      by_cases heq : ev' = ev
      · subst heq
        simp
      · dsimp only
        rw [Function.update_of_ne heq]
        exact h.states ev'
    case nodup => exact h.nodup
    case free => exact h.free
    case unused =>
      intro ev' hev'
      obtain ⟨hidle, hnum⟩ := h.unused ev' hev'
      exact ⟨update_idle hidle hbusy _, hnum⟩
    case fresh => exact fun ev' hev' => update_idle (h.fresh ev' hev') hbusy _
    case later => exact h.later

/-- A free event, or a new one, is idle. -/
theorem Events.allocEvent (h : s.unscheduled.Events cfg) :
    ∃ s' ev, s.allocEvent = (s', ev) ∧ s'.unscheduled.Events cfg ∧ SameParts s s' ∧
      s'.curCycle = s.curCycle ∧ s'.schedEvents ev = .IDLE ∧ ev ∉ s'.eventFreelist ∧
      ev < s'.numSchedEvents := by
  unfold DDRMemory.allocEvent
  split
  case h_1 ev rest hlist =>
    have hnodup : (ev :: rest).Nodup := hlist ▸ h.free
    have hunused : ∀ ev' ∈ ev :: rest, s.schedEvents ev' = .IDLE ∧ ev' < s.numSchedEvents :=
      hlist ▸ h.unused
    obtain ⟨hidle, hnum⟩ := hunused ev List.mem_cons_self
    obtain ⟨hout, hrest⟩ := List.nodup_cons.mp hnodup
    refine ⟨_, _, rfl, ?_, ⟨rfl, rfl, rfl⟩, rfl, hidle, hout, hnum⟩
    exact { h with
      free := hrest
      unused := fun ev' hev' => hunused ev' (List.mem_cons_of_mem _ hev') }
  case h_2 hlist =>
    refine ⟨_, _, rfl, ?_, ⟨rfl, rfl, rfl⟩, rfl, h.fresh _ le_rfl, ?_, Nat.lt_succ_self _⟩
    · exact { h with
        unused := fun ev' hev' => ⟨(h.unused ev' hev').1, Nat.lt_succ_of_lt (h.unused ev' hev').2⟩
        fresh := fun ev' hev' => h.fresh ev' (Nat.le_of_succ_le hev') }
    · exact hlist ▸ List.not_mem_nil

/-- An event that is pending is taken out, and is idle. -/
theorem Events.take (h : s.Events cfg) (hmem : (ev, cycle) ∈ s.pending)
    (hfirst : ∀ e ∈ s.pending, cycle ≤ e.2) :
    Events cfg { s with
      schedEvents := Function.update s.schedEvents ev .IDLE
      pending := s.pending.erase (ev, cycle)
      nextSchedEvent := if s.nextSchedEvent = some ev then none else s.nextSchedEvent
      nextSchedCycle := if s.nextSchedEvent = some ev then none else s.nextSchedCycle
      curCycle := cycle } := by
  have hpending : ∀ e, e ∈ s.pending.erase (ev, cycle) ↔ e.1 ≠ ev ∧ e ∈ s.pending := by
    intro e
    rw [h.nodup.of_map.mem_erase_iff]
    refine and_congr_left fun he => ⟨fun hne heq => hne ?_, fun hne heq => hne (heq ▸ rfl)⟩
    exact List.inj_on_of_nodup_map h.nodup he hmem heq
  have hbusy : s.schedEvents ev ≠ .IDLE := (h.pending ev).mp (List.mem_map_of_mem hmem)
  constructor
  case queued =>
    intro ev'
    dsimp only
    by_cases heq : ev' = ev
    · subst heq
      rw [Function.update_self]
      refine iff_of_false (by decide) fun hsome => ?_
      split at hsome
      · cases hsome
      case isFalse hnot => exact hnot hsome
    · rw [Function.update_of_ne heq, h.queued]
      split
      case isTrue hnext =>
        rw [hnext]
        exact iff_of_false (fun hsome => heq (Option.some.inj hsome).symm)
          (Option.some_ne_none ev').symm
      case isFalse => rfl
  case idle =>
    dsimp only
    split
    · exact fun _ => rfl
    · exact h.idle
  case fires =>
    dsimp only
    split
    case isTrue => exact fun ev' hev' => absurd hev'.symm (Option.some_ne_none ev')
    case isFalse hnot =>
      intro ev' hev'
      obtain ⟨cycle', hin, hcycle⟩ := h.fires ev' hev'
      refine ⟨cycle', (hpending _).mpr ⟨fun heq => hnot ?_, hin⟩, hcycle⟩
      rw [hev']
      exact congrArg some heq
  case pending =>
    intro ev'
    dsimp only
    by_cases heq : ev' = ev
    · subst heq
      rw [Function.update_self]
      refine iff_of_false (fun hin => ?_) (fun hne => hne rfl)
      obtain ⟨e, he, hfst⟩ := List.mem_map.mp hin
      exact ((hpending e).mp he).1 hfst
    · rw [Function.update_of_ne heq, ← h.pending, List.mem_map, List.mem_map]
      refine exists_congr fun e => ⟨fun ⟨he, hfst⟩ => ⟨((hpending e).mp he).2, hfst⟩, ?_⟩
      exact fun ⟨he, hfst⟩ => ⟨(hpending e).mpr ⟨hfst ▸ heq, he⟩, hfst⟩
  case states =>
    intro ev'
    dsimp only
    by_cases heq : ev' = ev
    · subst heq
      simp
    · rw [Function.update_of_ne heq]
      exact h.states ev'
  case nodup => exact h.nodup.sublist (List.Sublist.map _ List.erase_sublist)
  case free => exact h.free
  case unused =>
    intro ev' hev'
    obtain ⟨hidle, hnum⟩ := h.unused ev' hev'
    exact ⟨update_idle hidle hbusy _, hnum⟩
  case fresh => exact fun ev' hev' => update_idle (h.fresh ev' hev') hbusy _
  case later => exact fun e he => hfirst e ((hpending e).mp he).2

theorem Events.recycle (h : s.Events cfg) (hidle : s.schedEvents ev = .IDLE)
    (hfree : ev ∉ s.eventFreelist) (hnum : ev < s.numSchedEvents) :
    ∃ s', s.recycleEvent ev = some s' ∧ s'.Events cfg ∧ SameParts s s' ∧
      s'.nextSchedCycle = s.nextSchedCycle ∧ s'.pending = s.pending := by
  have hnext : s.nextSchedEvent ≠ some ev := fun hsome => by
    have hstate := (h.queued ev).mpr hsome
    rw [hidle] at hstate
    cases hstate
  refine ⟨{ s with eventFreelist := ev :: s.eventFreelist }, ?_, ?_, ⟨rfl, rfl, rfl⟩, rfl, rfl⟩
  · refine if_neg fun hbad => ?_
    obtain hsome | hmem := hbad
    · exact hnext hsome
    · exact hfree (List.dropLast_subset _ hmem)
  · constructor
    case free => exact List.nodup_cons.mpr ⟨hfree, h.free⟩
    case unused =>
      intro ev' hev'
      obtain rfl | hev' := List.mem_cons.mp hev'
      · exact ⟨hidle, hnum⟩
      · exact h.unused ev' hev'
    case queued => exact h.queued
    case idle => exact h.idle
    case fires => exact h.fires
    case pending => exact h.pending
    case states => exact h.states
    case nodup => exact h.nodup
    case fresh => exact h.fresh
    case later => exact h.later

/-! ### Wake-ups -/

/-- The matching system cycle, or a later one of the same memory cycle. -/
theorem sysToMemCycle_max (hv : cfg.Valid) (hle : cfg.sysToMemCycle sys ≤ t) :
    cfg.sysToMemCycle (max (cfg.matchingMemToSysCycle t) sys) = t :=
  matching_max_round_trip hv.mem_pos hv.freq hle

/-- What `wakeAt` does: an event is next. -/
theorem Events.wakeAt (h : s.Events cfg) (hv : cfg.Valid) (req : Request)
    (hcur : s.curCycle ≤ sys) : ∃ s', s.wakeAt cfg req (cfg.sysToMemCycle sys) sys = some s' ∧
      s'.Events cfg ∧ SameParts s s' ∧ s'.nextSchedCycle ≠ none := by
  unfold DDRMemory.wakeAt
  dsimp only
  generalize htime : (if isAfter s.nextSchedCycle (max (cfg.sysToMemCycle sys)
      (s.ctl.minRespCycle - cfg.timing.tCL - cfg.timing.tBL)) = true then
    max (max (cfg.sysToMemCycle sys) (s.ctl.minRespCycle - cfg.timing.tCL - cfg.timing.tBL))
      (s.ctl.findMinCmdCycle cfg req)
    else max (cfg.sysToMemCycle sys) (s.ctl.minRespCycle - cfg.timing.tCL - cfg.timing.tBL)) = t
  have hle : cfg.sysToMemCycle sys ≤ t := by
    rw [← htime]
    split <;> omega
  split
  case isTrue =>
    obtain ⟨s1, hannul, h1, hsame1, hcur1⟩ := h.annul
    obtain ⟨s2, ev, halloc, h2, hsame2, hcur2, hidle, hfree, hnum⟩ := h1.allocEvent
    have hcycle : s2.curCycle ≤ max (cfg.matchingMemToSysCycle t) sys := by
      rw [hcur2, hcur1]
      exact le_max_of_le_right hcur
    rw [hannul, Option.bind_some, halloc]
    dsimp only
    refine ⟨_, if_pos hidle, ?_, ⟨?_, ?_, ?_⟩, Option.some_ne_none t⟩
    · have hnew := h2.schedule hidle hfree hnum hcycle
      rw [sysToMemCycle_max hv hle] at hnew
      exact hnew
    · exact hsame2.ctl.trans hsame1.ctl
    · exact hsame2.numRequests.trans hsame1.numRequests
    · exact hsame2.refreshCycle.trans hsame1.refreshCycle
  case isFalse hsoon =>
    refine ⟨s, rfl, h, ⟨rfl, rfl, rfl⟩, fun hnone => hsoon ?_⟩
    rw [hnone]
    rfl

end DDRMemory

end Doppelganger.Dram
