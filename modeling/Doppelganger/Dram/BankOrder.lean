import Doppelganger.Dram.BankQueues
import Doppelganger.Dram.Service

/-! Runs of the controller.  After each step the queues of the banks hold the requests that came and
were not issued, in FR-FCFS order. -/

namespace Doppelganger.Dram

open Lib

variable {cfg : Config} {c c' : Controller} {log : List QueueEvent} {e : QueueEvent}
  {call : QueueCall} {r req req' : Request} {q q' : List Request} {w : Bool} {l : AddrLoc}
  {cur sys m : Nat}

/-- The requests to a row keep their order. -/
theorem Placed.filter_row (h : Placed q req q') (row : Nat) :
    q'.filter (·.loc.row = row) =
      q.filter (·.loc.row = row) ++ if req.loc.row = row then [req] else [] := by
  obtain ⟨before, after, rfl, rfl, hafter, -⟩ := h
  split
  case isTrue hrow =>
    have hnone : after.filter (·.loc.row = row) = [] :=
      List.filter_eq_nil_iff.mpr fun m hm => by simpa [← hrow] using hafter m hm
    simp [hrow, hnone]
  case isFalse hrow => simp [hrow]

theorem requestsOf_concat : requestsOf call w l (log ++ [e]) = requestsOf call w l log ++
    if e.call = call ∧ e.deferred = w ∧ e.req.loc.rank = l.rank ∧ e.req.loc.bank = l.bank ∧
      e.req.loc.row = l.row then [e.req] else [] := by
  unfold requestsOf
  rw [List.filter_append, List.map_append]
  congr 1
  split
  case isTrue h => simp [h]
  case isFalse h => simp [h]

/-- What holds of the queues after the events so far. -/
structure QueueTrace (cfg : Config) (log : List QueueEvent) (c : Controller) : Prop where
  ordered : ∀ e ∈ log, e.Ordered
  runs : ∀ w i j, HitRuns cfg.rowHitLimit (c.reqs w i j)
  fifo : ∀ w (l : AddrLoc), requestsOf .queue w l log =
    requestsOf .issue w l log ++ (c.reqs w l.rank l.bank).filter (·.loc.row = l.row)
  queues : ∀ w, ∀ r ∈ c.queueOf w, (cfg.deferredWrites && r.write) = w

theorem init_queueTrace (cfg : Config) : QueueTrace cfg [] (.init cfg) where
  ordered := nofun
  runs w i j := by cases w <;> exact .nil
  fifo w l := by cases w <;> rfl
  queues w := by cases w <;> exact nofun

namespace QueueTrace

theorem same (h : QueueTrace cfg log c) (hsame : c.SameQueues c') : QueueTrace cfg log c' where
  ordered := h.ordered
  runs w i j := hsame.reqs w i j ▸ h.runs w i j
  fifo w l := hsame.reqs w l.rank l.bank ▸ h.fifo w l
  queues w := hsame.queues w ▸ h.queues w

theorem queue (h : QueueTrace cfg log c) (hqueue : c.queue cfg req m = some (c', req')) :
    QueueTrace cfg
      (log ++ [c.queueEvent .queue req' (cfg.deferredWrites && req'.write) c']) c' := by
  obtain ⟨q', hchanged, hplaced, hruns⟩ := Controller.queue_changed h.runs hqueue rfl
  generalize hw : (cfg.deferredWrites && req'.write) = w at *
  have hreqs : c'.reqs w req'.loc.rank req'.loc.bank = q' := by
    rw [hchanged.reqs, if_pos ⟨rfl, rfl, rfl⟩]
  constructor
  case ordered =>
    intro e he
    rcases List.mem_append.mp he with he | he
    · exact h.ordered e he
    · rw [List.mem_singleton.mp he]
      rw [← hreqs] at hplaced
      exact ⟨hplaced, (hchanged.queues w).trans (if_pos rfl)⟩
  case runs =>
    intro w' i j
    rw [hchanged.reqs]
    split
    case isTrue => exact hruns
    case isFalse => exact h.runs w' i j
  case fifo =>
    intro w' l
    rw [requestsOf_concat, requestsOf_concat, h.fifo, hchanged.reqs]
    by_cases hhere : w' = w ∧ l.rank = req'.loc.rank ∧ l.bank = req'.loc.bank
    · obtain ⟨rfl, hrank, hbank⟩ := hhere
      simp [Controller.queueEvent, hrank, hbank, hplaced.filter_row, List.append_assoc]
    · have hother : ¬(w = w' ∧ req'.loc.rank = l.rank ∧ req'.loc.bank = l.bank ∧
          req'.loc.row = l.row) := fun ⟨hw', hrank, hbank, _⟩ =>
        hhere ⟨hw'.symm, hrank.symm, hbank.symm⟩
      simp [Controller.queueEvent, hhere, hother]
  case queues =>
    intro w' r hr
    rw [hchanged.queues] at hr
    split at hr
    case isTrue hsame =>
      rcases List.mem_append.mp hr with hr | hr
      · exact hsame ▸ h.queues w r hr
      · rw [List.mem_singleton.mp hr, hw, hsame]
    case isFalse => exact h.queues w' r hr

/-- The first request of a bank goes from both its queues. -/
theorem issue (h : QueueTrace cfg log c) (hmem : r ∈ c.queueOf w) (hfirst : c.first cfg r = true)
    (hissue : c.issue cfg r w cur sys = some c') :
    QueueTrace cfg (log ++ [c.queueEvent .issue r w c']) c' := by
  have hchanged := Controller.issue_changed hissue
  have hhead : c.reqs w r.loc.rank r.loc.bank = r :: (c.reqs w r.loc.rank r.loc.bank).tail := by
    have hbank : (c.bankQueue cfg r).head? = some r := of_decide_eq_true hfirst
    have hreqs : c.bankQueue cfg r = c.reqs (cfg.deferredWrites && r.write) r.loc.rank r.loc.bank :=
      rfl
    rw [hreqs, h.queues w r hmem] at hbank
    exact List.eq_cons_of_mem_head? hbank
  generalize (c.reqs w r.loc.rank r.loc.bank).tail = q' at hchanged hhead
  have hruns := h.runs w r.loc.rank r.loc.bank
  rw [hhead] at hruns
  constructor
  case ordered =>
    intro e he
    rcases List.mem_append.mp he with he | he
    · exact h.ordered e he
    · rw [List.mem_singleton.mp he]
      obtain ⟨before, after, -, hqueue, herase⟩ := List.exists_erase_eq hmem
      refine ⟨?_, before, after, hqueue, ?_⟩
      · exact hhead.trans (congrArg _ ((hchanged.reqs _ _ _).trans (if_pos ⟨rfl, rfl, rfl⟩)).symm)
      · exact ((hchanged.queues w).trans (if_pos rfl)).trans herase
  case runs =>
    intro w' i j
    rw [hchanged.reqs]
    split
    case isTrue => exact hruns.tail
    case isFalse => exact h.runs w' i j
  case fifo =>
    intro w' l
    rw [requestsOf_concat, requestsOf_concat, h.fifo, hchanged.reqs]
    by_cases hhere : w' = w ∧ l.rank = r.loc.rank ∧ l.bank = r.loc.bank
    · obtain ⟨rfl, hrank, hbank⟩ := hhere
      rw [hrank, hbank, hhead]
      by_cases hrow : r.loc.row = l.row <;> simp [Controller.queueEvent, hrow]
    · have hother : ¬(w = w' ∧ r.loc.rank = l.rank ∧ r.loc.bank = l.bank ∧ r.loc.row = l.row) :=
        fun ⟨hw', hrank, hbank, _⟩ => hhere ⟨hw'.symm, hrank.symm, hbank.symm⟩
      simp [Controller.queueEvent, hhere, hother]
  case queues =>
    intro w' r' hr'
    rw [hchanged.queues] at hr'
    split at hr'
    case isTrue hsame => exact hsame ▸ h.queues w r' (List.mem_of_mem_erase hr')
    case isFalse => exact h.queues w' r' hr'

theorem trySchedule (h : QueueTrace cfg log c) {next : Option Nat}
    (htry : c.trySchedule cfg cur sys = some (c', next)) :
    QueueTrace cfg (log ++ c.issues cfg cur sys) c' := by
  rcases trySchedule_spec htry with ⟨r, hready, hissue⟩ | ⟨hnone, rfl⟩
  · obtain ⟨hmem, hfirst, -⟩ := readyRequest_ready hready
    have hissues : c.issues cfg cur sys = [c.queueEvent .issue r (c.isWriteQueue cfg) c'] := by
      rw [Controller.issues, hready, Option.bind_some, htry]
      rfl
    rw [hissues]
    exact h.issue hmem hfirst hissue
  · rw [Controller.issues, hnone]
    simpa using h

theorem arrivals (h : QueueTrace cfg log c) (hqueue : c.queue cfg req m = some (c', req')) :
    QueueTrace cfg (log ++ c.arrivals cfg req m) c' := by
  have harrivals : c.arrivals cfg req m =
      [c.queueEvent .queue req' (cfg.deferredWrites && req'.write) c'] := by
    rw [Controller.arrivals, hqueue]
    rfl
  rw [harrivals]
  exact h.queue hqueue

theorem takeOverflow (h : QueueTrace cfg log c) {next next' : Option Nat}
    (htake : DDRMemory.takeOverflow cfg c next m = some (c', next')) :
    QueueTrace cfg (log ++ c.overflowArrivals cfg m) c' := by
  unfold Controller.overflowArrivals
  obtain ⟨rfl, hstays⟩ | ⟨ovfReq, rest, req, hover, hfull, hqueue⟩ := takeOverflow_spec htake
  · obtain hover | hfull := hstays
    · simpa [hover] using h
    · split <;> simpa [hfull] using h
  · have hrest : c.SameQueues { c with overflowQueue := rest } := ⟨fun _ _ _ => rfl, fun _ => rfl⟩
    simp only [hover, hfull, Bool.false_eq_true, if_false]
    exact (h.same hrest).arrivals hqueue

variable {s s' : DDRMemory}

theorem enqueue {lineAddr : UInt64} {write : Bool} {sysCycle : Nat} (h : QueueTrace cfg log s.ctl)
    (hstep : s.enqueue cfg lineAddr write sysCycle = some s') :
    QueueTrace cfg (log ++ queueEvents cfg (.enqueue lineAddr write sysCycle) s) s'.ctl := by
  obtain ⟨loc, hloc, hcases⟩ := enqueue_spec hstep
  have hheld : s.ctl.SameQueues { s.ctl with held := s.numRequests :: s.ctl.held } :=
    ⟨fun _ _ _ => rfl, fun _ => rfl⟩
  unfold queueEvents
  dsimp only
  rw [hloc, Option.elim_some]
  obtain ⟨hfull, hctl⟩ | ⟨hfull, req, hqueue⟩ := hcases
  · rw [if_pos hfull, List.append_nil, hctl]
    exact h.same ⟨fun _ _ _ => rfl, fun _ => rfl⟩
  · rw [if_neg (by simp [hfull])]
    exact (h.same hheld).arrivals hqueue

theorem fire {ev : Nat} (h : QueueTrace cfg log s.ctl) (hstep : s.fire cfg ev = some s') :
    QueueTrace cfg (log ++ queueEvents cfg (.fire ev) s) s'.ctl := by
  obtain ⟨startCycle, hlookup, hcases⟩ := fire_ctl hstep
  unfold queueEvents
  dsimp only
  rw [hlookup, Option.elim_some]
  obtain ⟨hqueued, c, next, next', htry, htake⟩ | ⟨hqueued, hctl⟩ := hcases
  · rw [if_pos hqueued, Controller.tickEvents, htry, Option.elim_some, ← List.append_assoc]
    exact (h.trySchedule htry).takeOverflow htake
  · rw [if_neg hqueued, List.append_nil, hctl]
    exact h

theorem step {op : Op} (h : QueueTrace cfg log s.ctl) (hstep : step cfg op s = some s') :
    QueueTrace cfg (log ++ queueEvents cfg op s) s'.ctl := by
  cases op with
  | enqueue lineAddr write sysCycle => exact h.enqueue hstep
  | fire ev => exact h.fire hstep
  | refresh =>
    cases hstep
    rw [queueEvents, List.append_nil]
    refine h.same (.of_banks (fun i j => ?_) (fun i j => ?_) rfl rfl)
    · exact apply_ite Bank.rdReqs _ _ _ |>.trans (ite_self _)
    · exact apply_ite Bank.wrReqs _ _ _ |>.trans (ite_self _)

end QueueTrace

/-- In every run the requests to a bank come to its queue in FR-FCFS order, each run of row hits
counts up to `rowHitLimit` at most, the first request of a bank is the one that is issued, and the
requests to a row are issued in the order in which they came. -/
theorem bank_queues_ordered (cfg : Config) (ops : List Op) {s : DDRMemory}
    (hrun : run (step cfg) ops (.init cfg) = some s) :
    (∀ e ∈ queueEventsOf cfg ops, e.Ordered) ∧
      (∀ deferred rank bank, HitRuns cfg.rowHitLimit (s.ctl.reqs deferred rank bank)) ∧
      ∀ deferred l, requestsOf .queue deferred l (queueEventsOf cfg ops) =
        requestsOf .issue deferred l (queueEventsOf cfg ops) ++
          (s.ctl.reqs deferred l.rank l.bank).filter (·.loc.row = l.row) := by
  have htrace : QueueTrace cfg (queueEventsOf cfg ops) s.ctl :=
    @run_emits _ _ _ _ _ (fun log (s : DDRMemory) => QueueTrace cfg log s.ctl)
      (fun _ _ _ _ h hstep => h.step hstep) ops [] _ _ (init_queueTrace cfg) hrun
  exact ⟨htrace.ordered, htrace.runs, htrace.fifo⟩

def reorderedOps : List Op :=
  [.enqueue 64 false 0, .enqueue 65600 false 0, .enqueue 72 false 0, .refresh, .fire 0, .fire 0]

/-- Two reads of a row with one of another row in between, which the second of them passes. -/
theorem bank_queues_ordered_run : ∃ cfg s, (exampleArgs 16).config = some cfg ∧
    run (step cfg) reorderedOps (.init cfg) = some s ∧ HitRuns 4 (s.ctl.reqs false 0 0) ∧
    (s.ctl.reqs false 0 0).map (fun r => (r.id, r.rowHitSeq)) = [(2, 1), (1, 0)] := by
  obtain ⟨cfg, hcfg, hlimit, hmap⟩ : ∃ cfg, (exampleArgs 16).config = some cfg ∧
      cfg.rowHitLimit = 4 ∧ ((run (step cfg) reorderedOps (.init cfg)).map fun s =>
        (s.ctl.reqs false 0 0).map fun r => (r.id, r.rowHitSeq)) = some [(2, 1), (1, 0)] :=
    ⟨_, rfl, rfl, by decide +kernel⟩
  obtain ⟨s, hrun, hreqs⟩ := Option.map_eq_some_iff.mp hmap
  obtain ⟨-, hruns, -⟩ := bank_queues_ordered cfg reorderedOps hrun
  exact ⟨cfg, s, hcfg, hrun, hlimit ▸ hruns false 0 0, hreqs⟩

end Doppelganger.Dram
