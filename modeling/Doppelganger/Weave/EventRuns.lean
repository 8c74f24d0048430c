import Doppelganger.Weave.EventGraph
import Mathlib.Order.WellFoundedSet

/-! Runs of an event graph.  Whatever the order of the events, each one runs after its parents, and
when nothing is left to run in a graph without cycles, each has run once. -/

namespace Doppelganger.Weave

open List Lib

namespace EventSim

variable {ι : Type*}

/-- No event is its own descendant. -/
def Acyclic (edges : List (ι × ι)) : Prop :=
  ∀ e, ¬Relation.TransGen (fun a b => (a, b) ∈ edges) e e

/-- The events that were added to the graph or queued. -/
def Known (s : EventSim ι) (e : ι) : Prop :=
  (∃ d ∈ s.edges, d.1 = e ∨ d.2 = e) ∨ (s.events e).state ≠ .NONE

/-- Nothing is left to run: each event without parents was queued, the queue is empty, and each
event that runs has called `done`. -/
structure Complete (s : EventSim ι) : Prop where
  roots : ∀ e, s.Known e → (∀ d ∈ s.edges, d.2 ≠ e) → (s.events e).state ≠ .NONE
  queue : s.queue = []
  called : ∀ e, (s.events e).state ≠ .RUNNING ∧ (s.events e).state ≠ .HELD

theorem acyclic_of_rank {edges : List (ι × ι)} (rank : ι → Nat)
    (h : ∀ d ∈ edges, rank d.1 < rank d.2) : Acyclic edges := by
  intro e he
  have hlt : ∀ {a b}, Relation.TransGen (fun a b => (a, b) ∈ edges) a b → rank a < rank b := by
    intro a b hab
    induction hab with
    | single hd => exact h _ hd
    | tail _ hd ih => exact Nat.lt_trans ih (h _ hd)
  exact Nat.lt_irrefl _ (hlt he)

/-- In a graph without cycles what passes from the parents to the child holds of all events. -/
theorem Acyclic.induction {edges : List (ι × ι)} (h : Acyclic edges) {p : ι → Prop}
    (hstep : ∀ e, (∀ d ∈ edges, d.2 = e → p d.1) → p e) (e : ι) : p e := by
  have hirrefl : Std.Irrefl (Relation.TransGen fun a b => (a, b) ∈ edges) := ⟨h⟩
  have hstrict : IsStrictOrder ι (Relation.TransGen fun a b => (a, b) ∈ edges) := {}
  have hwf := (finite_toSet (edges.map Prod.fst)).wellFoundedOn
    (r := Relation.TransGen fun a b => (a, b) ∈ edges)
  have hparents : ∀ d ∈ edges, p d.1 := fun d hd =>
    hwf.induction (mem_map_of_mem hd) fun a _ ih => hstep a fun d' hd' hda =>
      ih d'.1 (mem_map_of_mem hd') (hda ▸ .single hd')
  exact hstep e fun d hd _ => hparents d hd

variable {spec : ι → EventSpec} {s : EventSim ι}

/-- Each entry of the log has its parents behind it. -/
theorem Logged.split {edges : List (ι × ι)} : ∀ {newer older : List (Record ι)} {r : Record ι},
    Logged spec edges (newer ++ r :: older) → r.kind = .ran → ∀ d ∈ edges, d.2 = r.event →
      ∃ c, ⟨.done, d.1, c⟩ ∈ older ∧
        c + (spec d.1).postDelay + (spec r.event).preDelay ≤ r.cycle
  | [], older, r, h, hran, d, hd, hde => by
    obtain ⟨t, ⟨c, hc, hle⟩, hpre⟩ := h.1 hran d hd hde
    exact ⟨c, hc, by omega⟩
  | _ :: _, _, _, h, hran, d, hd, hde => Logged.split h.2 hran d hd hde

variable [DecidableEq ι]

/-- When a graph without cycles is complete, all its events are done. -/
theorem Inv.done_of_complete (h : Inv spec s []) (hacyclic : Acyclic s.edges)
    (hcomplete : s.Complete) (e : ι) : s.Known e → (s.events e).state = .DONE := by
  refine hacyclic.induction (p := fun e => s.Known e → (s.events e).state = .DONE)
    (fun e ih hknown => ?_) e
  have hnone : (s.events e).state ≠ .NONE := by
    intro hnone
    by_cases hroot : ∀ d ∈ s.edges, d.2 ≠ e
    · exact hcomplete.roots e hknown hroot hnone
    -- The parents are done, so no call is left to wait for.
    · push Not at hroot
      obtain ⟨d, hd, hde⟩ := hroot
      have hwaits := h.settled.waiting d hd (hde ▸ hnone)
      rw [hde, h.core.parents e, countP_nil, Nat.add_zero] at hwaits
      obtain ⟨d', hd', hopen⟩ := countP_pos_iff.mp (Nat.pos_of_ne_zero hwaits)
      simp only [Bool.and_eq_true, decide_eq_true_eq, bne_iff_ne] at hopen
      exact hopen.2 (ih d' hd' hopen.1 (.inl ⟨d', hd', .inl rfl⟩))
  have hqueued : (s.events e).state ≠ .QUEUED := fun hqueued => by
    have hmem := (h.core.queued _ e).mpr ⟨hqueued, rfl⟩
    simp [hcomplete.queue] at hmem
  obtain ⟨hrun, hheld⟩ := hcomplete.called e
  cases hstate : (s.events e).state with
  | NONE => exact absurd hstate hnone
  | QUEUED => exact absurd hstate hqueued
  | RUNNING => exact absurd hstate hrun
  | HELD => exact absurd hstate hheld
  | DONE => rfl

end EventSim

open EventSim

/-- For every graph built with `addChild` and every order in which its events run: no assertion
fails and no count underflows; the visit of the children of an event goes through what was added to
it; an event runs after its parents, not before the cycles that they give it; it is done at most
once; and when the graph has no cycles and nothing is left to run, each event has been done once,
and has run once, apart from the times that it put itself back into the queue. -/
theorem events_run_once {ι : Type*} [DecidableEq ι] (spec : ι → EventSpec) (cycle : ι → Nat)
    (ops : List (EventOp ι)) (hops : Along (step spec) (Allowed spec) ops (init cycle)) :
    ∃ s, run (step spec) ops (init cycle) = some s ∧
      (∀ e, ∃ cs, (s.events e).children.visitChildren = some cs ∧
        cs.Perm (childrenOf s.edges e)) ∧
      (∀ newer older e c, s.log = newer ++ ⟨.ran, e, c⟩ :: older → ∀ d ∈ s.edges, d.2 = e →
        ∃ c', ⟨.done, d.1, c'⟩ ∈ older ∧
          c' + (spec d.1).postDelay + (spec e).preDelay ≤ c) ∧
      (∀ e, times .done e s.log ≤ 1 ∧ times .ran e s.log ≤ times .requeued e s.log + 1) ∧
      (Acyclic s.edges → s.Complete → ∀ e, s.Known e →
        times .done e s.log = 1 ∧ times .ran e s.log = times .requeued e s.log + 1) := by
  obtain ⟨s, hrun, h⟩ := run_keeps step_inv ops (init_inv cycle) hops
  refine ⟨s, hrun, fun e => ?_, fun newer older e c hlog d hd hde => ?_, fun e => ⟨?_, ?_⟩,
    fun hacyclic hcomplete e hknown => ?_⟩
  · obtain ⟨cs, hpacked, hperm⟩ := h.core.packed e
    exact ⟨cs, hpacked.visitChildren, hperm⟩
  · exact Logged.split (hlog ▸ h.core.logged) rfl d hd hde
  · rw [h.core.dones e]
    split <;> decide
  · rw [h.core.rans e]
    cases (s.events e).state <;> simp [active]
  · have hdone := h.done_of_complete hacyclic hcomplete e hknown
    rw [h.core.dones e, h.core.rans e, hdone]
    exact ⟨rfl, rfl⟩

/-- Event 1 is a `DelayEvent`, and event 0 has its children in two blocks. -/
def sampleSpec (e : Fin 6) : EventSpec := if e = 1 then .delay 5 0 else ⟨.TimingEvent, 1, 2, 0⟩

def sampleRun : List (EventOp (Fin 6)) :=
  [.addChild 0 1, .addChild 0 2, .addChild 0 4, .addChild 0 5, .addChild 1 3, .addChild 2 3,
    .queue 0 10, .run 0 10, .done 0 12, .run 4 15, .run 2 15, .requeue 2 18, .run 2 18, .hold 2,
    .release 2, .done 2 20, .run 5 15, .done 5 15, .run 3 23, .done 4 30, .done 3 25]

theorem events_run_once_sample :
    ∃ s, run (step sampleSpec) sampleRun (init fun _ => 0) = some s ∧
      (∃ cs, (s.events 0).children.visitChildren = some cs ∧ cs.Perm [1, 2, 4, 5]) ∧
      ∀ e, times .done e s.log = 1 ∧ times .ran e s.log = times .requeued e s.log + 1 := by
  obtain ⟨s, hrun, hchildren, -, -, hall⟩ :=
    events_run_once sampleSpec (fun _ => 0) sampleRun (by decide +kernel)
  have hend : (run (step sampleSpec) sampleRun (init fun _ => 0)).all fun s =>
      s.queue = [] ∧ (∀ d ∈ s.edges, d.1 < d.2) ∧ (∀ e, (s.events e).state = .DONE) ∧
        (childrenOf s.edges 0).Perm [1, 2, 4, 5] := by decide +kernel
  rw [hrun, Option.all_some, decide_eq_true_eq] at hend
  obtain ⟨hqueue, hrank, hdone, hperm⟩ := hend
  have hcomplete : s.Complete :=
    ⟨fun e _ _ => by simp [hdone e], hqueue, fun e => by simp [hdone e]⟩
  obtain ⟨cs, hcs, hcsperm⟩ := hchildren 0
  exact ⟨s, hrun, ⟨cs, hcs, hcsperm.trans hperm⟩,
    fun e => hall (acyclic_of_rank Fin.val hrank) hcomplete e (.inr (by simp [hdone e]))⟩

end Doppelganger.Weave
