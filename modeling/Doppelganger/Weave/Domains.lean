import Doppelganger.Weave.ContentionSim

/-! The data of a domain in a weave phase.  What is pending is not before `curCycle`, and the events
of the phase are those that ran and those that are pending. -/

namespace Doppelganger.Weave

open List

/-- A value that was stored is not after what came later. -/
def Mark.Follows : Mark → Mark → Prop
  | .stored c, .stored v | .simulated c, .stored v => v ≤ c
  | _, .simulated _ => True

instance : ∀ later earlier, Decidable (Mark.Follows later earlier)
  | .stored _, .stored _ | .simulated _, .stored _ => inferInstanceAs (Decidable (_ ≤ _))
  | .stored _, .simulated _ | .simulated _, .simulated _ => isTrue trivial

/-- The number of domains of a thread. -/
def Config.perThread (cfg : Config) : Nat := cfg.numDomains / cfg.numSimThreads

/-- The cycles that a weave phase runs: those before the limit when a thread has one domain, and the
limit itself too when it has several. -/
def Config.Runs (cfg : Config) (limit cycle : Nat) : Prop :=
  if cfg.perThread = 1 then cycle < limit else cycle ≤ limit

theorem Config.runs_single {cfg : Config} {limit cycle : Nat} (h : cfg.perThread = 1) :
    cfg.Runs limit cycle ↔ cycle < limit := by
  rw [Config.Runs, if_pos h]

theorem Config.runs_several {cfg : Config} {limit cycle : Nat} (h : cfg.perThread ≠ 1) :
    cfg.Runs limit cycle ↔ cycle ≤ limit := by
  rw [Config.Runs, if_neg h]

theorem Config.Runs.le {cfg : Config} {limit cycle : Nat} (h : cfg.Runs limit cycle) :
    cycle ≤ limit := by
  rw [Config.Runs] at h
  split at h
  · exact Nat.le_of_lt h
  · exact h

/-- After the event the queue of its domain is empty, or its first event is up to the limit. -/
def Choice.Within {ι : Type*} [DecidableEq ι] (limit : Nat) (pq : List (Nat × ι))
    (ch : Choice ι) : Prop :=
  ch.triggered ++ pq.erase ch.event = [] ∨ ∃ e ∈ ch.triggered ++ pq.erase ch.event, e.1 ≤ limit

namespace DomainData

variable {ι : Type*}

/-- Each value of `curCycle` was a lower bound for what came later, and the last one is the
greatest. -/
structure Ascending (dom : DomainData ι) : Prop where
  marks : dom.marks.Pairwise Mark.Follows
  last : ∀ v, .stored v ∈ dom.marks → v ≤ dom.curCycle

/-- A domain in a bound phase. -/
structure Waiting (ordered : Prop) (lastLimit : Nat) (dom : DomainData ι) : Prop where
  pending : ∀ e ∈ dom.pq, lastLimit ≤ e.1
  cycle : dom.curCycle = lastLimit
  ascending : ordered → dom.Ascending

/-- A domain in a weave phase, where `ordered` tells whether its cycles keep within the limit. -/
structure Weaving (cfg : Config) (ordered : Prop) (lastLimit limit : Nat)
    (dom : DomainData ι) : Prop where
  pending : ∀ e ∈ dom.pq, dom.curCycle ≤ e.1
  start : lastLimit ≤ dom.curCycle
  all : (dom.ran ++ dom.pq).Perm dom.arrived
  ran : ∀ e ∈ dom.ran, cfg.Runs limit e.1
  bounded : ordered → dom.curCycle ≤ limit ∧ dom.Ascending

/-- A domain at the end of the phase. -/
def Ended (cfg : Config) (limit : Nat) (dom : DomainData ι) : Prop :=
  dom.curCycle = limit ∧ ∀ e ∈ dom.pq, ¬cfg.Runs limit e.1

section

variable {cfg : Config} {ordered : Prop} {lastLimit limit cycle : Nat} {dom : DomainData ι}

theorem dueSingle_iff : dom.dueSingle limit = true ↔ ∃ e ∈ dom.pq, e.1 < limit := by
  rw [dueSingle, firstCycle]
  cases hmin : (dom.pq.map Prod.fst).min? with
  | none =>
    have hnil : dom.pq = [] := by simpa using hmin
    simp [hnil]
  | some c =>
    obtain ⟨hmem, hle⟩ := min?_eq_some_iff.mp hmin
    obtain ⟨e, he, rfl⟩ := mem_map.mp hmem
    simp only [Option.any_some, decide_eq_true_eq]
    refine ⟨fun h => ⟨e, he, h⟩, fun ⟨e', he', h⟩ => ?_⟩
    exact Nat.lt_of_le_of_lt (hle _ (mem_map_of_mem he')) h

theorem dueMany_iff : dom.dueMany limit = true ↔ ∃ e ∈ dom.pq, e.1 ≤ limit := by
  rw [dueMany, firstCycle]
  cases hmin : (dom.pq.map Prod.fst).min? with
  | none =>
    have hnil : dom.pq = [] := by simpa using hmin
    simp [hnil]
  | some c =>
    obtain ⟨hmem, hle⟩ := min?_eq_some_iff.mp hmin
    obtain ⟨e, he, rfl⟩ := mem_map.mp hmem
    simp only [Option.all_some, Bool.not_eq_true', decide_eq_false_iff_not, Nat.not_lt]
    refine ⟨fun h => ⟨e, he, h⟩, fun ⟨e', he', h⟩ => ?_⟩
    exact Nat.le_trans (hle _ (mem_map_of_mem he')) h

/-- The next cycle is that of the first event, or the limit. -/
theorem newCycle_le (limit : Nat) (dom : DomainData ι) :
    ∀ e ∈ dom.pq, dom.newCycle limit ≤ e.1 := by
  intro e he
  rw [newCycle, firstCycle]
  cases hmin : (dom.pq.map Prod.fst).min? with
  | none =>
    have hnil : dom.pq = [] := by simpa using hmin
    simp [hnil] at he
  | some c => exact (min?_eq_some_iff.mp hmin).2 _ (mem_map_of_mem he)

theorem newCycle_cases (limit : Nat) (dom : DomainData ι) :
    (dom.pq = [] ∧ dom.newCycle limit = limit) ∨ ∃ e ∈ dom.pq, dom.newCycle limit = e.1 := by
  rw [newCycle, firstCycle]
  cases hmin : (dom.pq.map Prod.fst).min? with
  | none =>
    have hnil : dom.pq = [] := by simpa using hmin
    exact .inl ⟨hnil, rfl⟩
  | some c =>
    obtain ⟨e, he, rfl⟩ := mem_map.mp (min?_eq_some_iff.mp hmin).1
    exact .inr ⟨e, he, rfl⟩

theorem Ascending.store (h : dom.Ascending) (hc : dom.curCycle ≤ cycle) :
    (dom.store cycle).Ascending := by
  refine ⟨pairwise_cons.mpr ⟨fun m hm => ?_, h.marks⟩, fun v hv => ?_⟩
  · cases m with
    | stored v => exact Nat.le_trans (h.last v hm) hc
    | simulated v => trivial
  · rcases mem_cons.mp hv with hv | hv
    · cases hv
      exact Nat.le_refl _
    · exact Nat.le_trans (h.last v hv) hc

theorem Weaving.store (h : dom.Weaving cfg ordered lastLimit limit) (hc : dom.curCycle ≤ cycle)
    (hpq : ∀ e ∈ dom.pq, cycle ≤ e.1) (hlimit : ordered → cycle ≤ limit) :
    (dom.store cycle).Weaving cfg ordered lastLimit limit where
  pending := hpq
  start := Nat.le_trans h.start hc
  all := h.all
  ran := h.ran
  bounded ho := ⟨hlimit ho, (h.bounded ho).2.store hc⟩

theorem storeNew_curCycle (cycle : Nat) (dom : DomainData ι) :
    (dom.storeNew cycle).curCycle = cycle := by
  rw [storeNew]
  split
  · rfl
  · next h => exact (not_not.mp h).symm

@[simp] theorem storeNew_pq (cycle : Nat) (dom : DomainData ι) :
    (dom.storeNew cycle).pq = dom.pq := by
  rw [storeNew]
  split <;> rfl

theorem Weaving.storeNew (h : dom.Weaving cfg ordered lastLimit limit) (hc : dom.curCycle ≤ cycle)
    (hpq : ∀ e ∈ dom.pq, cycle ≤ e.1) (hlimit : ordered → cycle ≤ limit) :
    (dom.storeNew cycle).Weaving cfg ordered lastLimit limit := by
  rw [DomainData.storeNew]
  split
  · exact h.store hc hpq hlimit
  · exact h

theorem Weaving.dequeue [DecidableEq ι] {e : Nat × ι} (h : dom.Weaving cfg ordered lastLimit limit)
    (he : e ∈ dom.pq) (hruns : cfg.Runs limit e.1) :
    (dom.dequeue e).Weaving cfg ordered lastLimit limit where
  pending e' he' := h.pending e' (mem_of_mem_erase he')
  start := h.start
  all := (perm_middle.symm.trans ((perm_cons_erase he).symm.append_left _)).trans h.all
  ran e' he' := by
    rcases mem_cons.mp he' with rfl | he'
    · exact hruns
    · exact h.ran e' he'
  bounded ho := by
    obtain ⟨hle, hasc⟩ := h.bounded ho
    refine ⟨hle, pairwise_cons.mpr ⟨fun m hm => ?_, hasc.marks⟩, fun v hv => ?_⟩
    · cases m with
      | stored v => exact Nat.le_trans (hasc.last v hm) (h.pending e he)
      | simulated v => trivial
    · rcases mem_cons.mp hv with hv | hv
      · cases hv
      · exact hasc.last v hv

/-- The events that an event enqueues. -/
theorem Weaving.enqueueAll : ∀ (es : List (Nat × ι)) {dom : DomainData ι},
    dom.Weaving cfg ordered lastLimit limit →
    (∀ e ∈ es, dom.curCycle ≤ e.1 ∧ e.1 < lastLimit + 10 * cfg.phaseLength + 1000000) →
    ∃ dom', es.foldlM (DomainData.enqueue cfg lastLimit) dom = some dom' ∧
      dom'.Weaving cfg ordered lastLimit limit ∧ dom'.curCycle = dom.curCycle ∧
      dom'.pq = es.reverse ++ dom.pq
  | [], dom, h, _ => ⟨dom, rfl, h, rfl, rfl⟩
  | e :: es, dom, h, hes => by
    obtain ⟨hcur, hfar⟩ := hes e (mem_cons_self ..)
    have hweaving : ({ dom with pq := e :: dom.pq, arrived := e :: dom.arrived } :
        DomainData ι).Weaving cfg ordered lastLimit limit := by
      refine ⟨fun e' he' => ?_, h.start, perm_middle.trans (h.all.cons e), h.ran,
        fun ho => ⟨(h.bounded ho).1, (h.bounded ho).2.marks, (h.bounded ho).2.last⟩⟩
      rcases mem_cons.mp he' with rfl | he'
      · exact hcur
      · exact h.pending e' he'
    obtain ⟨dom', hrest, hw, hcur', hpq⟩ :=
      Weaving.enqueueAll es hweaving fun e' he' => hes e' (mem_cons_of_mem _ he')
    refine ⟨dom', ?_, hw, hcur', by rw [hpq]; simp⟩
    rw [foldlM_cons, DomainData.enqueue, if_pos ⟨Nat.le_trans h.start hcur, hfar, hcur⟩]
    exact hrest

/-- An event runs: the queue is left with the others and with what it enqueued, and `curCycle` is
its cycle. -/
theorem Weaving.runFirst [DecidableEq ι] {ch : Choice ι}
    (h : dom.Weaving cfg ordered lastLimit limit) (he : Earliest dom.pq ch.event)
    (hruns : cfg.Runs limit ch.event.1)
    (htrig : ∀ e ∈ ch.triggered, ch.event.1 ≤ e.1 ∧
      e.1 < lastLimit + 10 * cfg.phaseLength + 1000000) :
    ∃ dom', dom.runFirst cfg lastLimit ch = some dom' ∧
      dom'.Weaving cfg ordered lastLimit limit ∧ dom'.curCycle = ch.event.1 ∧
      dom'.pq = ch.triggered.reverse ++ dom.pq.erase ch.event := by
  have hstored := h.storeNew (h.pending _ he.1) he.2 fun _ => hruns.le
  have hcur := dom.storeNew_curCycle ch.event.1
  obtain ⟨dom', hall, hw, hcur', hpq⟩ := Weaving.enqueueAll ch.triggered
    (hstored.dequeue (by simpa using he.1) hruns) (by simpa [DomainData.dequeue, hcur] using htrig)
  refine ⟨dom'.setPrio ch.prio, by rw [DomainData.runFirst, hall]; rfl, ?_, ?_, ?_⟩
  · exact ⟨hw.pending, hw.start, hw.all, hw.ran,
      fun ho => ⟨(hw.bounded ho).1, (hw.bounded ho).2.marks, (hw.bounded ho).2.last⟩⟩
  · exact hcur'.trans hcur
  · rw [← dom.storeNew_pq ch.event.1]
    exact hpq

/-- An event runs, and the next cycle is not before it. -/
theorem Weaving.runNew [DecidableEq ι] {ch : Choice ι}
    (h : dom.Weaving cfg ordered lastLimit limit) (he : Earliest dom.pq ch.event)
    (hruns : cfg.Runs limit ch.event.1)
    (htrig : ∀ e ∈ ch.triggered, ch.event.1 ≤ e.1 ∧
      e.1 < lastLimit + 10 * cfg.phaseLength + 1000000)
    (hwithin : ordered → ch.Within limit dom.pq) :
    ∃ dom', dom.runFirst cfg lastLimit ch = some dom' ∧
      dom'.Weaving cfg ordered lastLimit limit ∧ dom'.curCycle = ch.event.1 ∧
      ch.event.1 ≤ dom'.newCycle limit ∧ (ordered → dom'.newCycle limit ≤ limit) := by
  obtain ⟨dom', hrun, hw, hcur, hpq⟩ := h.runFirst he hruns htrig
  refine ⟨dom', hrun, hw, hcur, ?_, fun ho => ?_⟩
  · rcases dom'.newCycle_cases limit with ⟨-, hnew⟩ | ⟨e, hmem, hnew⟩
    · rw [hnew]
      exact hruns.le
    · rw [hnew, ← hcur]
      exact hw.pending e hmem
  · rcases hwithin ho with hnil | ⟨e, hmem, hle⟩
    · rcases dom'.newCycle_cases limit with ⟨-, hnew⟩ | ⟨e, hmem, -⟩
      · exact Nat.le_of_eq hnew
      · obtain ⟨htrig, hpending⟩ := append_eq_nil_iff.mp hnil
        simp [hpq, htrig, hpending] at hmem
    · refine Nat.le_trans (dom'.newCycle_le limit e ?_) hle
      rw [hpq]
      simpa using mem_append.mp hmem

/-- A round of the loop over one domain. -/
theorem Weaving.roundSingle [DecidableEq ι] {ch : Choice ι}
    (h : dom.Weaving cfg ordered lastLimit limit) (he : Earliest dom.pq ch.event)
    (hruns : cfg.Runs limit ch.event.1)
    (htrig : ∀ e ∈ ch.triggered, ch.event.1 ≤ e.1 ∧
      e.1 < lastLimit + 10 * cfg.phaseLength + 1000000)
    (hwithin : ordered → ch.Within limit dom.pq) :
    ∃ dom', dom.roundSingle cfg lastLimit limit ch = some dom' ∧
      dom'.Weaving cfg ordered lastLimit limit := by
  obtain ⟨dom', hrun, hw, hcur, hnew, hmax⟩ := h.runNew he hruns htrig hwithin
  refine ⟨dom'.storeNew (dom'.newCycle limit), ?_,
    hw.storeNew (hcur ▸ hnew) (dom'.newCycle_le limit) hmax⟩
  rw [DomainData.roundSingle, if_pos (h.pending _ he.1), hrun, Option.bind_some, if_pos hnew]

/-- The event of a round of the loops over several domains. -/
theorem Weaving.roundMany [DecidableEq ι] {ch : Choice ι}
    (h : dom.Weaving cfg ordered lastLimit limit) (he : Earliest dom.pq ch.event)
    (hruns : cfg.Runs limit ch.event.1)
    (htrig : ∀ e ∈ ch.triggered, ch.event.1 ≤ e.1 ∧
      e.1 < lastLimit + 10 * cfg.phaseLength + 1000000)
    (hwithin : ordered → ch.Within limit dom.pq) :
    ∃ dom', dom.roundMany cfg lastLimit limit ch = some dom' ∧
      dom'.Weaving cfg ordered lastLimit limit := by
  obtain ⟨dom', hrun, hw, hcur, hnew, hmax⟩ := h.runNew he hruns htrig hwithin
  have hstored := hw.store (hcur ▸ hnew) (dom'.newCycle_le limit) hmax
  refine ⟨{ dom'.store (dom'.newCycle limit) with queuePrio := dom'.newCycle limit },
    by rw [DomainData.roundMany, hrun]; rfl, hstored.pending, hstored.start, hstored.all,
    hstored.ran, fun ho => ⟨(hstored.bounded ho).1, (hstored.bounded ho).2.marks,
      (hstored.bounded ho).2.last⟩⟩

/-- Nothing is left to run, and the limit is stored. -/
theorem Weaving.ended (h : dom.Weaving cfg ordered lastLimit limit) (hlimit : lastLimit ≤ limit)
    (hpq : ∀ e ∈ dom.pq, ¬cfg.Runs limit e.1) :
    (dom.store limit).Weaving cfg ordered lastLimit limit ∧ (dom.store limit).Ended cfg limit := by
  refine ⟨⟨fun e he => ?_, hlimit, h.all, h.ran, fun ho => ?_⟩, rfl, hpq⟩
  · have hnot := hpq e he
    rw [Config.Runs] at hnot
    split at hnot
    · exact Nat.le_of_not_lt hnot
    · exact Nat.le_of_not_le hnot
  · obtain ⟨hle, hasc⟩ := h.bounded ho
    exact ⟨Nat.le_refl _, hasc.store hle⟩

/-- At the end of a phase the events that it runs have run, and the others are pending. -/
theorem Weaving.split (h : dom.Weaving cfg ordered lastLimit limit) (hend : dom.Ended cfg limit)
    (p q : Nat × ι → Bool) (hp : ∀ e, p e = true ↔ cfg.Runs limit e.1)
    (hq : ∀ e, q e = true ↔ ¬cfg.Runs limit e.1) :
    dom.ran.Perm (dom.arrived.filter p) ∧ dom.pq.Perm (dom.arrived.filter q) := by
  have hran : ∀ e ∈ dom.ran, p e = true ∧ ¬q e = true := fun e he =>
    ⟨(hp e).mpr (h.ran e he), fun hqe => (hq e).mp hqe (h.ran e he)⟩
  have hpq : ∀ e ∈ dom.pq, q e = true ∧ ¬p e = true := fun e he =>
    ⟨(hq e).mpr (hend.2 e he), fun hpe => hend.2 e he ((hp e).mp hpe)⟩
  have hleft := h.all.filter p
  have hright := h.all.filter q
  rw [filter_append, filter_eq_self.mpr fun e he => (hran e he).1,
    filter_eq_nil_iff.mpr fun e he => (hpq e he).2, append_nil] at hleft
  rw [filter_append, filter_eq_nil_iff.mpr fun e he => (hran e he).2,
    filter_eq_self.mpr fun e he => (hpq e he).1, nil_append] at hright
  exact ⟨hleft, hright⟩

end

end DomainData

end Doppelganger.Weave
