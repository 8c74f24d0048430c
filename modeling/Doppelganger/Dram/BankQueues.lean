import Doppelganger.Dram.Spacing
import Mathlib.Data.List.Chain
import Mathlib.Data.List.TakeWhile

/-! The queues of the banks.  `queue` puts a request at its place in the queue of its bank, and
`trySchedule` takes away the one that it issues.  The events of a run say what each of these calls
does to the two queues that the request is in. -/

namespace Doppelganger.Dram

open Lib

inductive QueueCall
  | queue
  | issue
deriving DecidableEq, Repr

/-- A request that comes to its queues or leaves them.  `reqs` is the queue of its bank and `queue`
is `rdQueue` or `wrQueue`, before and after; `deferred` says that these are for deferred writes. -/
structure QueueEvent where
  call : QueueCall
  req : Request
  deferred : Bool
  reqs : List Request
  reqs' : List Request
  queue : List Request
  queue' : List Request
deriving DecidableEq, Repr

namespace Controller

variable (cfg : Config) (c : Controller)

/-- One of the two queues of a bank. -/
def reqs (deferred : Bool) (rank bank : Nat) : List Request :=
  if deferred then (c.banks rank bank).wrReqs else (c.banks rank bank).rdReqs

def queueEvent (call : QueueCall) (r : Request) (deferred : Bool) (c' : Controller) : QueueEvent :=
  ⟨call, r, deferred, c.reqs deferred r.loc.rank r.loc.bank, c'.reqs deferred r.loc.rank r.loc.bank,
    c.queueOf deferred, c'.queueOf deferred⟩

/-- The event of `queue`. -/
def arrivals (req : Request) (memCycle : Nat) : List QueueEvent :=
  ((c.queue cfg req memCycle).map fun (c', req) =>
    c.queueEvent .queue req (cfg.deferredWrites && req.write) c').toList

/-- The event of `trySchedule`, if it issues a request. -/
def issues (curCycle sysCycle : Nat) : List QueueEvent :=
  ((c.readyRequest cfg curCycle).bind fun r =>
    (c.trySchedule cfg curCycle sysCycle).map fun (c', _) =>
      c.queueEvent .issue r (c.isWriteQueue cfg) c').toList

/-- The event of the request that `tick` takes from the `overflowQueue`. -/
def overflowArrivals (memCycle : Nat) : List QueueEvent :=
  match c.overflowQueue with
  | [] => []
  | ovfReq :: rest =>
    if c.full cfg then [] else { c with overflowQueue := rest }.arrivals cfg ovfReq memCycle

def tickEvents (memCycle sysCycle : Nat) : List QueueEvent :=
  c.issues cfg memCycle sysCycle ++ (c.trySchedule cfg memCycle sysCycle).elim []
    fun (c', _) => c'.overflowArrivals cfg memCycle

end Controller

/-- The events of a step. -/
def queueEvents (cfg : Config) : Op → DDRMemory → List QueueEvent
  | .enqueue lineAddr write sysCycle, s =>
    (cfg.mapLineAddr lineAddr).elim [] fun loc =>
      if s.ctl.full cfg then []
      else { s.ctl with held := s.numRequests :: s.ctl.held }.arrivals cfg
        (s.request cfg loc write sysCycle) (cfg.sysToMemCycle sysCycle)
  | .fire ev, s =>
    (s.pending.lookup ev).elim [] fun startCycle =>
      if s.schedEvents ev = .QUEUED then
        s.ctl.tickEvents cfg (cfg.sysToMemCycle startCycle) startCycle
      else []
  | .refresh, _ => []

/-- The events of a run from the start. -/
def queueEventsOf (cfg : Config) (ops : List Op) : List QueueEvent :=
  emitted (step cfg) (queueEvents cfg) ops (.init cfg)

/-! ### The order -/

/-- `b` comes after `a` in a queue: it starts a run of requests to one row, or goes on with that of
`a`. -/
def FollowsHit (a b : Request) : Prop :=
  b.rowHitSeq = 0 ∨ b.loc.row = a.loc.row ∧ b.rowHitSeq = a.rowHitSeq + 1

/-- The runs of a queue, none of which goes on for more than `rowHitLimit`. -/
structure HitRuns (rowHitLimit : Nat) (q : List Request) : Prop where
  chain : q.IsChain FollowsHit
  limit : ∀ r ∈ q, r.rowHitSeq ≤ rowHitLimit

/-- A request comes after all others to its row, and before one to another row only at the end of a
run of its own. -/
def Placed (q : List Request) (req : Request) (q' : List Request) : Prop :=
  ∃ before after, q = before ++ after ∧ q' = before ++ req :: after ∧
    (∀ m ∈ after, m.loc.row ≠ req.loc.row) ∧
    (after ≠ [] → ∃ m ∈ before.getLast?, m.loc.row = req.loc.row ∧
      req.rowHitSeq = m.rowHitSeq + 1)

/-- A request that comes is placed, and one that leaves is the first one of its bank; the same
request is added to the other queue, or taken from it. -/
def QueueEvent.Ordered (e : QueueEvent) : Prop :=
  match e.call with
  | .queue => Placed e.reqs e.req e.reqs' ∧ e.queue' = e.queue ++ [e.req]
  | .issue => e.reqs = e.req :: e.reqs' ∧
    ∃ before after, e.queue = before ++ e.req :: after ∧ e.queue' = before ++ after

/-- The requests to a row that came to a queue of a bank, or that left it, in order. -/
def requestsOf (call : QueueCall) (deferred : Bool) (l : AddrLoc) (log : List QueueEvent) :
    List Request :=
  (log.filter fun e => e.call = call ∧ e.deferred = deferred ∧ e.req.loc.rank = l.rank ∧
    e.req.loc.bank = l.bank ∧ e.req.loc.row = l.row).map (·.req)

/-! ### The place of a request -/

section

variable {limit : Nat} {q before after : List Request} {req m : Request}

theorem HitRuns.nil : HitRuns limit [] := ⟨.nil, nofun⟩

theorem HitRuns.tail (h : HitRuns limit (req :: q)) : HitRuns limit q :=
  ⟨h.chain.tail, fun r hr => h.limit r (List.mem_cons_of_mem _ hr)⟩

theorem Placed.last (q : List Request) (req : Request) : Placed q req (q ++ [req]) :=
  ⟨q, [], (List.append_nil q).symm, rfl, nofun, fun h => absurd rfl h⟩

/-- A request that starts a run of its own comes last. -/
theorem HitRuns.concat (h : HitRuns limit q) (hseq : req.rowHitSeq = 0) :
    HitRuns limit (q ++ [req]) where
  chain := by
    refine h.chain.append (.singleton req) fun a _ b hb => ?_
    obtain rfl := Option.some.inj hb
    exact .inl hseq
  limit r hr := by
    rcases List.mem_append.mp hr with hr | hr
    · exact h.limit r hr
    · rw [List.mem_singleton.mp hr, hseq]
      exact Nat.zero_le limit

/-- A request joins the run of the last one to its row; the one after it starts another. -/
theorem HitRuns.insert (h : HitRuns limit (before ++ after)) (hm : m ∈ before.getLast?)
    (hrow : m.loc.row = req.loc.row) (hseq : req.rowHitSeq = m.rowHitSeq + 1)
    (hlimit : req.rowHitSeq ≤ limit) (hafter : ∀ r ∈ after, r.loc.row ≠ req.loc.row) :
    HitRuns limit (before ++ req :: after) where
  chain := by
    obtain ⟨hbefore, hrest, hlink⟩ := List.isChain_append.mp h.chain
    refine hbefore.append (List.isChain_cons.mpr ⟨fun y hy => ?_, hrest⟩) fun a ha b hb => ?_
    · refine (hlink m hm y hy).imp_right fun hsame => ?_
      exact absurd (hsame.1.trans hrow) (hafter y (List.mem_of_head? hy))
    · obtain rfl := Option.some.inj (ha.symm.trans hm)
      obtain rfl := Option.some.inj hb
      exact .inr ⟨hrow.symm, hseq⟩
  limit r hr := by
    rcases List.mem_append.mp hr with hr | hr
    · exact h.limit r (List.mem_append_left _ hr)
    · rcases List.mem_cons.mp hr with rfl | hr
      · exact hlimit
      · exact h.limit r (List.mem_append_right _ hr)

end

namespace Controller

variable {cfg : Config} {c c' : Controller} {r req req' : Request} {q q' : List Request}
  {bank : Bank} {w : Bool} {cur sys m : Nat}

theorem insertRequest_spec (hq : HitRuns cfg.rowHitLimit q)
    (h : insertRequest cfg bank q req = (req', q')) :
    Placed q req' q' ∧ HitRuns cfg.rowHitLimit q' ∧ req'.loc = req.loc ∧
      req'.write = req.write := by
  have hsplit := List.takeWhile_append_dropWhile (p := fun m => m.loc.row ≠ req.loc.row)
    (l := q.reverse)
  have htake : ∀ r ∈ (q.reverse.takeWhile fun m => m.loc.row ≠ req.loc.row).reverse,
      r.loc.row ≠ req.loc.row := fun r hr => by
    simpa using List.mem_takeWhile_imp (List.mem_reverse.mp hr)
  unfold insertRequest at h
  dsimp only at h
  split at h
  case h_1 m rest hdrop =>
    have hrow : m.loc.row = req.loc.row := by
      have hhead := List.head?_dropWhile_not (fun m => m.loc.row ≠ req.loc.row) q.reverse
      rw [hdrop] at hhead
      simpa using hhead
    rw [hdrop] at hsplit
    have hq' : q = (m :: rest).reverse ++
        (q.reverse.takeWhile fun m => m.loc.row ≠ req.loc.row).reverse := by
      rw [← List.reverse_append, hsplit, List.reverse_reverse]
    generalize (q.reverse.takeWhile fun m => m.loc.row ≠ req.loc.row).reverse = after
      at h htake hq'
    have hlast : m ∈ (m :: rest).reverse.getLast? := by simp
    split at h
    case isTrue hlimit =>
      obtain ⟨rfl, rfl⟩ := Prod.mk.inj h
      rw [hq'] at hq
      exact ⟨⟨_, after, hq', rfl, htake, fun _ => ⟨m, hlast, hrow, rfl⟩⟩,
        hq.insert hlast hrow rfl hlimit htake, rfl, rfl⟩
    case isFalse =>
      obtain ⟨rfl, rfl⟩ := Prod.mk.inj h
      exact ⟨.last .., hq.concat rfl, rfl, rfl⟩
  case h_2 =>
    split at h
    case isTrue hbypass =>
      obtain ⟨-, -, hlimit, rfl⟩ := hbypass
      obtain ⟨rfl, rfl⟩ := Prod.mk.inj h
      refine ⟨.last [] _, ⟨.singleton _, fun r hr => ?_⟩, rfl, rfl⟩
      rw [List.mem_singleton.mp hr]
      exact hlimit
    case isFalse =>
      obtain ⟨rfl, rfl⟩ := Prod.mk.inj h
      exact ⟨.last .., hq.concat rfl, rfl, rfl⟩

/-! ### What the calls leave alone -/

/-- The queues of the banks, and those of the controller, are the same. -/
structure SameQueues (c c' : Controller) : Prop where
  reqs : ∀ w i j, c'.reqs w i j = c.reqs w i j
  queues : ∀ w, c'.queueOf w = c.queueOf w

theorem SameQueues.of_banks
    (hrdReqs : ∀ i j, (c'.banks i j).rdReqs = (c.banks i j).rdReqs)
    (hwrReqs : ∀ i j, (c'.banks i j).wrReqs = (c.banks i j).wrReqs)
    (hrd : c'.rdQueue = c.rdQueue) (hwr : c'.wrQueue = c.wrQueue) : SameQueues c c' where
  reqs w i j := by rw [Controller.reqs, Controller.reqs, hrdReqs, hwrReqs]
  queues w := by rw [queueOf, queueOf, hrd, hwr]

theorem SameQueues.trans {c'' : Controller} (h : SameQueues c c') (h' : SameQueues c' c'') :
    SameQueues c c'' :=
  ⟨fun w i j => (h'.reqs w i j).trans (h.reqs w i j), fun w => (h'.queues w).trans (h.queues w)⟩

theorem SameRequests.queues (h : SameRequests c c') : SameQueues c c' :=
  .of_banks h.rdReqs h.wrReqs h.rd h.wr

theorem finishEvent_queues {ev cycle : Nat} (h : c.finishEvent ev cycle = some c') :
    SameQueues c c' := by
  obtain ⟨-, h⟩ := Option.ite_none_right_eq_some.mp h
  cases h
  exact .of_banks (fun _ _ => rfl) (fun _ _ => rfl) rfl rfl

theorem activate_queues (h : c.activate cfg r = some c') : SameQueues c c' := by
  unfold activate at h
  split at h
  case isTrue =>
    cases h
    exact .of_banks (fun _ _ => rfl) (fun _ _ => rfl) rfl rfl
  case isFalse =>
    obtain ⟨w, -, rfl⟩ := Option.map_eq_some_iff.mp h
    refine .of_banks ?_ ?_ rfl rfl
    · exact field_setBank (·.rdReqs) rfl
    · exact field_setBank (·.wrReqs) rfl

theorem respond_queues (h : c.respond cfg r sys = some c') : SameQueues c c' := by
  unfold respond at h
  split at h
  case h_1 =>
    obtain ⟨-, h⟩ := Option.ite_none_right_eq_some.mp h
    exact finishEvent_queues h
  case h_2 =>
    cases h
    exact .of_banks (fun _ _ => rfl) (fun _ _ => rfl) rfl rfl

/-- `c'` has `q` for one queue of a bank, and `queue` for that of the controller. -/
structure Changed (c c' : Controller) (w : Bool) (l : AddrLoc) (q queue : List Request) : Prop where
  reqs : ∀ w' i j, c'.reqs w' i j =
    if w' = w ∧ i = l.rank ∧ j = l.bank then q else c.reqs w' i j
  queues : ∀ w', c'.queueOf w' = if w' = w then queue else c.queueOf w'

theorem Changed.of_banks {l : AddrLoc} {queue : List Request}
    (hbanks : ∀ i j, c'.banks i j = if i = l.rank ∧ j = l.bank then bank else c.banks i j)
    (hq : ∀ w', (if w' then bank.wrReqs else bank.rdReqs) =
      if w' = w then q else c.reqs w' l.rank l.bank)
    (hqueue : ∀ w', c'.queueOf w' = if w' = w then queue else c.queueOf w') :
    Changed c c' w l q queue where
  reqs w' i j := by
    rw [Controller.reqs, hbanks]
    by_cases hhere : i = l.rank ∧ j = l.bank
    · rw [if_pos hhere, hq, hhere.1, hhere.2]
      simp only [and_self, and_true]
    · have hnot : ¬(w' = w ∧ i = l.rank ∧ j = l.bank) := fun h => hhere h.2
      rw [if_neg hhere, if_neg hnot]
      rfl
  queues := hqueue

theorem SameQueues.changed {c₁ c₂ : Controller} {l : AddrLoc} {queue : List Request}
    (h : SameQueues c c₁) (hc : Changed c₁ c₂ w l q queue) : Changed c c₂ w l q queue :=
  ⟨fun w' i j => (hc.reqs w' i j).trans (by rw [h.reqs]),
    fun w' => (hc.queues w').trans (by rw [h.queues])⟩

/-- A request that is dequeued is taken from two queues. -/
theorem dequeue_changed (c : Controller) (r : Request) (w : Bool) :
    Changed c (c.dequeue r w) w r.loc (c.reqs w r.loc.rank r.loc.bank).tail
      ((c.queueOf w).erase r) := by
  unfold dequeue
  dsimp only
  cases w with
  | false =>
    rw [if_neg Bool.false_ne_true]
    refine .of_banks (banks_setBank _ _ _) (fun w' => ?_) (fun w' => ?_)
    · cases w' <;> rfl
    · cases w' <;> rfl
  | true =>
    rw [if_pos rfl]
    refine .of_banks (banks_setBank _ _ _) (fun w' => ?_) (fun w' => ?_)
    · cases w' <;> rfl
    · cases w' <;> rfl

theorem issue_changed (h : c.issue cfg r w cur sys = some c') :
    Changed c c' w r.loc (c.reqs w r.loc.rank r.loc.bank).tail ((c.queueOf w).erase r) := by
  obtain ⟨c1, hact, h⟩ := Option.bind_eq_some_iff.mp h
  obtain ⟨-, h⟩ := Option.ite_none_right_eq_some.mp h
  obtain ⟨c2, hrespond, rfl⟩ := Option.map_eq_some_iff.mp h
  have hsame := ((activate_queues hact).trans (record_same r _).queues).trans
    (respond_queues hrespond)
  have hchanged := hsame.changed (dequeue_changed c2 r w)
  rwa [hsame.reqs, hsame.queues] at hchanged

/-- A request that comes is added to two queues. -/
theorem queue_changed (hruns : ∀ w i j, HitRuns cfg.rowHitLimit (c.reqs w i j))
    (h : c.queue cfg req m = some (c', req')) (hw : (cfg.deferredWrites && req'.write) = w) :
    ∃ q', Changed c c' w req'.loc q' (c.queueOf w ++ [req']) ∧
      Placed (c.reqs w req'.loc.rank req'.loc.bank) req' q' ∧ HitRuns cfg.rowHitLimit q' := by
  unfold queue at h
  dsimp only at h
  obtain ⟨c1, hanswered, heq⟩ := Option.map_eq_some_iff.mp h
  have hsame : SameQueues c c1 := by
    split at hanswered
    case isTrue =>
      obtain ⟨ev, -, hfinish⟩ := Option.bind_eq_some_iff.mp hanswered
      exact finishEvent_queues hfinish
    case isFalse =>
      cases hanswered
      exact .of_banks (fun _ _ => rfl) (fun _ _ => rfl) rfl rfl
  generalize hreq : { req with
    arrivalCycle := m
    ev := if req.write then none else req.ev } = arriving at heq
  cases hinsert : insertRequest cfg (c1.bankOf arriving) (c1.bankQueue cfg arriving) arriving with
  | mk placed q' =>
    rw [hinsert] at heq
    have hold := hruns (cfg.deferredWrites && arriving.write) arriving.loc.rank arriving.loc.bank
    rw [← hsame.reqs] at hold
    obtain ⟨hplaced, hruns', hloc, hwrite⟩ := insertRequest_spec hold hinsert
    rw [← hloc, ← hwrite] at hplaced
    rw [← hsame.reqs, ← hsame.queues]
    dsimp only at heq
    split at heq
    case isTrue hdeferred =>
      obtain ⟨rfl, rfl⟩ := Prod.mk.inj heq
      obtain rfl : true = w := hdeferred.symm.trans hw
      rw [hdeferred] at hplaced
      refine ⟨q', hsame.changed (.of_banks (banks_setBank _ _ _) ?_ ?_), hplaced, hruns'⟩
      · rintro ⟨⟩
        · rw [hloc]
          rfl
        · rfl
      · rintro ⟨⟩ <;> rfl
    case isFalse hdeferred =>
      obtain ⟨rfl, rfl⟩ := Prod.mk.inj heq
      obtain rfl : false = w := (Bool.eq_false_of_not_eq_true hdeferred).symm.trans hw
      rw [Bool.eq_false_of_not_eq_true hdeferred] at hplaced
      refine ⟨q', hsame.changed (.of_banks (banks_setBank _ _ _) ?_ ?_), hplaced, hruns'⟩
      · rintro ⟨⟩
        · rfl
        · rw [hloc]
          rfl
      · rintro ⟨⟩ <;> rfl

end Controller

end Doppelganger.Dram
