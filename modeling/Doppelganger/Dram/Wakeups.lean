import Doppelganger.Dram.SchedEvents

/-! A step keeps the requests, the events and what they have to do with each other: an event is next
exactly when `rdQueue` or `wrQueue` has a request, and the `overflowQueue` has none when they are
empty. -/

namespace Doppelganger.Dram

namespace DDRMemory

structure Inv (cfg : Config) (s : DDRMemory) : Prop where
  ctl : s.ctl.Inv cfg s.numRequests none
  events : s.Events cfg
  next : s.nextSchedCycle = none ↔ s.ctl.Empty
  spilled : s.ctl.overflowQueue ≠ [] → ¬s.ctl.Empty

variable {cfg : Config} {s s' : DDRMemory} {c : Controller} {ev cycle sys n : Nat}

theorem init_inv (cfg : Config) : (init cfg).Inv cfg where
  ctl := Controller.init_inv cfg
  events := init_events cfg
  next := iff_of_true rfl ⟨rfl, rfl⟩
  spilled := fun h => absurd rfl h

/-- The events know nothing of the requests. -/
theorem Events.frame (h : s.Events cfg) (c : Controller) (n refreshCycle : Nat)
    (hlater : ∀ e ∈ s.pending, cycle ≤ e.2) : Events cfg { s with
      ctl := c
      numRequests := n
      curCycle := cycle
      refreshCycle := refreshCycle } :=
  { h with later := hlater }

theorem Inv.exists_next (h : s.Inv cfg) (hqueues : ¬s.ctl.Empty) :
    ∃ ev cycle, s.nextSchedEvent = some ev ∧ (ev, cycle) ∈ s.pending ∧
      s.nextSchedCycle = some (cfg.sysToMemCycle cycle) := by
  cases hnext : s.nextSchedEvent with
  | none => exact absurd (h.next.mp (h.events.idle hnext)) hqueues
  | some ev =>
    obtain ⟨cycle, hmem, hcycle⟩ := h.events.fires ev hnext
    exact ⟨ev, cycle, rfl, hmem, hcycle⟩

theorem mem_of_lookup (h : s.pending.lookup ev = some cycle) : (ev, cycle) ∈ s.pending := by
  obtain ⟨l₁, l₂, hl, -⟩ := List.lookup_eq_some_iff.mp h
  rw [hl]
  exact List.mem_append_right _ List.mem_cons_self

/-! ### Requests that arrive -/

theorem Inv.enqueue (h : s.Inv cfg) (hv : cfg.Valid) (hdepth : 0 < cfg.queueDepth)
    {lineAddr : UInt64} {loc : AddrLoc} (hloc : cfg.mapLineAddr lineAddr = some loc) (write : Bool)
    (hlater : ∀ e ∈ s.pending, sys ≤ e.2) :
    ∃ s', s.enqueue cfg lineAddr write sys = some s' ∧ s'.Inv cfg ∧
      s'.numRequests = s.numRequests + 1 := by
  generalize hreq : (⟨s.numRequests, loc, write, 0, cfg.sysToMemCycle sys, some s.numRequests⟩ :
    Request) = req
  have hid : req.id = s.numRequests := by rw [← hreq]
  have hev : req.ev = some s.numRequests := by rw [← hreq]
  have harrive := h.ctl.arrive hid hev
  unfold DDRMemory.enqueue
  rw [hloc, Option.bind_some]
  dsimp only
  rw [hreq]
  split
  case isTrue hfull =>
    refine ⟨_, rfl, ⟨?_, h.events.frame _ _ _ hlater, h.next, fun _ => ?_⟩, rfl⟩
    · exact harrive.move (List.perm_append_singleton req s.ctl.overflowQueue)
    · exact Controller.not_empty_of_full hdepth hfull
  case isFalse =>
    obtain ⟨c, req', hqueue, q⟩ := harrive.queue_spec (cfg.sysToMemCycle sys)
    have hevents := h.events.frame c (s.numRequests + 1) s.refreshCycle hlater
    rw [hqueue, Option.bind_some]
    dsimp only
    split
    case isTrue =>
      obtain ⟨s', hwake, hevents', hsame, hsome⟩ := hevents.wakeAt hv req' (Nat.le_refl sys)
      refine ⟨s', hwake, ⟨?_, hevents', ?_, ?_⟩, hsame.numRequests⟩
      · rw [hsame.ctl, hsame.numRequests]
        exact harrive.of_queued q
      · rw [hsame.ctl]
        exact iff_of_false hsome q.not_empty
      · rw [hsame.ctl]
        exact fun _ => q.not_empty
    case isFalse hfirst =>
      refine ⟨_, rfl, ⟨harrive.of_queued q, hevents, ?_, fun _ => q.not_empty⟩, rfl⟩
      refine iff_of_false (fun hnone => hfirst ?_) q.not_empty
      exact q.first_of_empty (h.ctl.bank_nil (h.next.mp hnone))

/-! ### Refreshes -/

theorem Inv.refresh (h : s.Inv cfg) (hv : cfg.Valid)
    (hlater : ∀ e ∈ s.pending, s.refreshCycle ≤ e.2) : (s.refresh cfg).Inv cfg where
  ctl := h.ctl.refresh hv _
  events := h.events.frame _ _ _ hlater
  next := h.next
  spilled := h.spilled

/-! ### Ticks -/

theorem tick_spec (h : s.ctl.Inv cfg n none) (hv : cfg.Valid) (hdepth : 0 < cfg.queueDepth)
    (hnext : s.nextSchedCycle = some (cfg.sysToMemCycle sys)) (hqueues : ¬s.ctl.Empty) :
    ∃ c next, s.ctl.Ticked cfg n (cfg.sysToMemCycle sys) c next ∧
      (next = none ∧ s.tick cfg sys =
          some ({ s with ctl := c, nextSchedCycle := none, nextSchedEvent := none }, 0) ∨
        ∃ t, next = some t ∧ s.tick cfg sys = some ({ s with ctl := c, nextSchedCycle := some t },
          max (cfg.matchingMemToSysCycle t) sys)) := by
  obtain ⟨c1, next1, c2, next2, htry, hle, htake, hticked⟩ :=
    h.tick_spec hv hdepth (Nat.le_refl (cfg.sysToMemCycle sys)) hqueues
  have hall : next1.all (cfg.sysToMemCycle sys ≤ ·) = true := by
    cases next1 with
    | none => rfl
    | some t => exact decide_eq_true (hle t rfl)
  refine ⟨c2, next2, hticked, ?_⟩
  unfold tick
  dsimp only
  rw [if_pos hnext, htry, Option.bind_some]
  dsimp only
  rw [if_pos hall, htake, Option.map_some]
  cases next2 with
  | none => exact .inl ⟨rfl, rfl⟩
  | some t => exact .inr ⟨t, rfl, rfl⟩

/-- An annulled event is recycled, and does not tick. -/
theorem Inv.fire_annulled (h : s.Inv cfg) (hlookup : s.pending.lookup ev = some cycle)
    (hstate : s.schedEvents ev = .ANNULLED) (hfirst : ∀ e ∈ s.pending, cycle ≤ e.2) :
    ∃ s', s.fire cfg ev = some s' ∧ s'.Inv cfg ∧ SameParts s s' ∧
      s'.nextSchedCycle = s.nextSchedCycle ∧ s'.pending.length + 1 = s.pending.length := by
  have hmem := mem_of_lookup hlookup
  have hother : s.nextSchedEvent ≠ some ev := fun hnext => by
    have hqueued := (h.events.queued ev).mpr hnext
    rw [hstate] at hqueued
    cases hqueued
  have hbusy : s.schedEvents ev ≠ .IDLE := by
    rw [hstate]
    decide
  have htake := h.events.take hmem hfirst
  rw [if_neg hother, if_neg hother] at htake
  obtain ⟨s', hrecycle, hevents, hsame, hcycle, hpending⟩ := htake.recycle
    (Function.update_self ev _ _) (fun hfree => hbusy (h.events.unused ev hfree).1)
    (Nat.lt_of_not_le fun hnum => hbusy (h.events.fresh ev hnum))
  refine ⟨s', ?_, ⟨?_, hevents, ?_, ?_⟩,
    ⟨hsame.ctl, hsame.numRequests, hsame.refreshCycle⟩, hcycle, ?_⟩
  · unfold fire
    rw [hlookup, Option.bind_some]
    dsimp only
    rw [if_neg (by rw [hstate]; decide), if_pos hstate]
    exact hrecycle
  · rw [hsame.ctl, hsame.numRequests]
    exact h.ctl
  · rw [hsame.ctl, hcycle]
    exact h.next
  · rw [hsame.ctl]
    exact h.spilled
  · rw [hpending]
    dsimp only
    rw [List.length_erase_of_mem hmem]
    have hpos := List.length_pos_of_mem hmem
    omega

/-- The queued event ticks at the memory cycle `nextSchedCycle`. -/
theorem Inv.fire_queued (h : s.Inv cfg) (hv : cfg.Valid) (hdepth : 0 < cfg.queueDepth)
    (hlookup : s.pending.lookup ev = some cycle) (hstate : s.schedEvents ev = .QUEUED)
    (hfirst : ∀ e ∈ s.pending, cycle ≤ e.2) :
    ∃ s', s.fire cfg ev = some s' ∧ s'.Inv cfg ∧
      s.nextSchedCycle = some (cfg.sysToMemCycle cycle) ∧
      s.ctl.Ticked cfg s.numRequests (cfg.sysToMemCycle cycle) s'.ctl s'.nextSchedCycle ∧
      s'.refreshCycle = s.refreshCycle ∧ s'.numRequests = s.numRequests ∧
      s'.pending.length ≤ s.pending.length := by
  have hmem := mem_of_lookup hlookup
  have hnext := (h.events.queued ev).mp hstate
  have hcycle : s.nextSchedCycle = some (cfg.sysToMemCycle cycle) := by
    obtain ⟨cycle', hmem', hcycle'⟩ := h.events.fires ev hnext
    have heq := List.inj_on_of_nodup_map h.events.nodup hmem hmem' rfl
    cases heq
    exact hcycle'
  have hqueues : ¬s.ctl.Empty := fun hempty => by
    rw [h.next.mpr hempty] at hcycle
    cases hcycle
  have hbusy : s.schedEvents ev ≠ .IDLE := by
    rw [hstate]
    decide
  have hfree : ev ∉ s.eventFreelist := fun hfree => hbusy (h.events.unused ev hfree).1
  have hnum : ev < s.numSchedEvents :=
    Nat.lt_of_not_le fun hnum => hbusy (h.events.fresh ev hnum)
  have htake := h.events.take hmem hfirst
  rw [if_pos hnext, if_pos hnext] at htake
  have hlength : (s.pending.erase (ev, cycle)).length + 1 = s.pending.length := by
    have hpos := List.length_pos_of_mem hmem
    rw [List.length_erase_of_mem hmem]
    omega
  obtain ⟨c, next, hticked, hresult⟩ := tick_spec (s := { s with
    pending := s.pending.erase (ev, cycle)
    curCycle := cycle
    schedEvents := Function.update s.schedEvents ev .RUNNING }) h.ctl hv hdepth hcycle hqueues
  obtain ⟨hinv, hempty, hover, hle⟩ := hticked.inv h.ctl
  have htaken := htake.frame c s.numRequests s.refreshCycle htake.later
  unfold fire
  rw [hlookup, Option.bind_some]
  dsimp only
  rw [if_pos hstate]
  obtain ⟨rfl, htick⟩ | ⟨t, rfl, htick⟩ := hresult
  · obtain ⟨s', hrecycle, hevents, hsame, hcycle', hpending⟩ :=
      htaken.recycle (Function.update_self ev _ _) hfree hnum
    refine ⟨s', ?_, ?_, hcycle, ?_, hsame.refreshCycle, hsame.numRequests, ?_⟩
    · rw [htick, Option.bind_some]
      dsimp only
      rw [if_neg (fun hne => hne rfl), Function.update_idem]
      exact hrecycle
    · refine ⟨?_, hevents, ?_, ?_⟩
      · rw [hsame.ctl, hsame.numRequests]
        exact hinv
      · rw [hsame.ctl, hcycle']
        exact hempty
      · rw [hsame.ctl]
        exact hover
    · rw [hsame.ctl, hcycle']
      exact hticked
    · rw [hpending]
      dsimp only
      omega
  · have hpos : 0 < cfg.matchingMemToSysCycle t :=
      hv.matching_pos ((cfg.sysToMemCycle_pos cycle).trans_le (hle t rfl))
    have hevents := Events.schedule (s := { s with
      ctl := c
      schedEvents := Function.update s.schedEvents ev .IDLE
      pending := s.pending.erase (ev, cycle)
      nextSchedEvent := none
      nextSchedCycle := none
      curCycle := cycle }) htaken (Function.update_self ev _ _) hfree hnum
      (le_max_right (cfg.matchingMemToSysCycle t) cycle)
    rw [sysToMemCycle_max hv (hle t rfl)] at hevents
    dsimp only at hevents
    rw [Function.update_idem, ← hnext] at hevents
    refine ⟨_, ?_, ⟨hinv, hevents, hempty, hover⟩, hcycle, hticked, rfl, rfl, ?_⟩
    · rw [htick, Option.bind_some]
      dsimp only
      rw [if_pos (by omega), Function.update_idem]
    · dsimp only
      rw [List.length_append, List.length_singleton]
      omega

end DDRMemory

end Doppelganger.Dram
