import Doppelganger.Dram.Requests

/-! How a request gets into the queues: `queue` keeps the invariant of the requests, answers a write
at once, and succeeds.  A request that finds the queues empty is the first one of its bank. -/

namespace Doppelganger.Dram

namespace Controller

variable {cfg : Config} {c c' : Controller} {r req req' : Request} {n m : Nat}
  {hand : Option Request}

theorem mem_waiting : r ∈ c.waiting hand ↔
    hand = some r ∨ r ∈ c.rdQueue ∨ r ∈ c.wrQueue ∨ r ∈ c.overflowQueue := by
  simp [waiting]

/-! ### Answers -/

theorem finishEvent_of_mem {ev : Nat} (h : ev ∈ c.held) (cycle : Nat) :
    c.finishEvent ev cycle =
      some { c with held := c.held.erase ev, done := c.done ++ [(ev, cycle)] } :=
  if_pos h

/-- An event that is done is not lost. -/
theorem account_finish {held : List Nat} {done : List (Nat × Nat)} {ev : Nat}
    (h : (held ++ done.map Prod.fst).Perm (List.range n)) (hev : ev ∈ held) (cycle : Nat) :
    (held.erase ev ++ (done ++ [(ev, cycle)]).map Prod.fst).Perm (List.range n) := by
  have hmove : (ev :: (held.erase ev ++ done.map Prod.fst)).Perm (held ++ done.map Prod.fst) :=
    (List.perm_cons_erase hev).symm.append_right _
  refine List.Perm.trans ?_ (hmove.trans h)
  rw [List.map_append, ← List.append_assoc]
  exact List.perm_append_singleton _ _

/-! ### `queue` -/

/-- A request gets its place between two others. -/
theorem insertRequest_split (cfg : Config) (bank : Bank) (q : List Request) (req : Request) :
    ∃ req' before after, (∃ k, req' = { req with rowHitSeq := k }) ∧ q = before ++ after ∧
      insertRequest cfg bank q req = (req', before ++ req' :: after) := by
  unfold insertRequest
  dsimp only
  split
  case h_1 m rest hdrop =>
    split
    · have hsplit := List.takeWhile_append_dropWhile
        (p := fun m => decide (m.loc.row ≠ req.loc.row)) (l := q.reverse)
      rw [hdrop] at hsplit
      refine ⟨_, (m :: rest).reverse, _, ⟨_, rfl⟩, ?_, rfl⟩
      rw [← List.reverse_append, hsplit, List.reverse_reverse]
    · exact ⟨_, q, [], ⟨0, rfl⟩, (List.append_nil _).symm, rfl⟩
  case h_2 =>
    split
    · exact ⟨_, [], q, ⟨_, rfl⟩, rfl, rfl⟩
    · exact ⟨_, q, [], ⟨0, rfl⟩, (List.append_nil _).symm, rfl⟩

/-- The controller after `queue`, with the request as it is then. -/
structure Queued (cfg : Config) (n m : Nat) (req : Request) (c c' : Controller) (req' : Request) :
    Prop where
  same : ∃ k, req' = { req with
    rowHitSeq := k, arrivalCycle := m, ev := if req.write then none else req.ev }
  rd : c'.rdQueue = c.rdQueue ++ if cfg.deferredWrites && req.write then [] else [req']
  wr : c'.wrQueue = c.wrQueue ++ if cfg.deferredWrites && req.write then [req'] else []
  overflow : c'.overflowQueue = c.overflowQueue
  rdReqs : ∀ rank bank, ∃ before after, (c.banks rank bank).rdReqs = before ++ after ∧
    (c'.banks rank bank).rdReqs = before ++ (if (cfg.deferredWrites && req.write) = false ∧
      req.loc.rank = rank ∧ req.loc.bank = bank then [req'] else []) ++ after
  wrReqs : ∀ rank bank, ∃ before after, (c.banks rank bank).wrReqs = before ++ after ∧
    (c'.banks rank bank).wrReqs = before ++ (if (cfg.deferredWrites && req.write) = true ∧
      req.loc.rank = rank ∧ req.loc.bank = bank then [req'] else []) ++ after
  timing : ∀ rank bank, (c'.banks rank bank).minPreCycle = (c.banks rank bank).minPreCycle ∧
    (c'.banks rank bank).lastActCycle = (c.banks rank bank).lastActCycle ∧
    (c'.banks rank bank).lastCmdCycle = (c.banks rank bank).lastCmdCycle
  windows : c'.rankActWindows = c.rankActWindows
  resp : c'.minRespCycle = c.minRespCycle
  held : ∀ ev, ev ∈ c'.held ↔ ev ∈ c.held ∧ ¬(req.write = true ∧ ev = req.id)
  account : (c'.held ++ c'.done.map Prod.fst).Perm (List.range n)

/-- `queue` after its answer. -/
theorem Inv.queue_answered (h : Inv cfg n (some req) c) (m : Nat) :
    ∃ held done, (∀ ev, ev ∈ held ↔ ev ∈ c.held ∧ ¬(req.write = true ∧ ev = req.id)) ∧
      (held ++ done.map Prod.fst).Perm (List.range n) ∧
      (if req.write then
        req.ev.bind fun ev => c.finishEvent ev
          (cfg.memToSysCycle m + cfg.minWrLatency - cfg.preDelay - Config.postDelayWr)
      else some c) = some { c with held := held, done := done } := by
  have hev : req.ev = some req.id := h.unqueued req (by simp)
  have hmem : req.id ∈ c.held := (h.held _).mpr ⟨req, mem_waiting.mpr (.inl rfl), hev⟩
  cases hwrite : req.write with
  | false => exact ⟨c.held, c.done, by simp, h.account, by simp⟩
  | true =>
    refine ⟨c.held.erase req.id, c.done ++ [(req.id, cfg.memToSysCycle m + cfg.minWrLatency -
      cfg.preDelay - Config.postDelayWr)], fun ev => ?_, account_finish h.account hmem _, ?_⟩
    · rw [h.held_nodup.mem_erase_iff]
      simp [and_comm]
    · rw [if_pos rfl, hev, Option.bind_some, finishEvent_of_mem hmem]

theorem Inv.queue_spec (h : Inv cfg n (some req) c) (m : Nat) :
    ∃ c' req', c.queue cfg req m = some (c', req') ∧ Queued cfg n m req c c' req' := by
  obtain ⟨held, done, hheld, haccount, hanswer⟩ := h.queue_answered m
  unfold queue
  dsimp only
  rw [hanswer, Option.map_some]
  generalize hbase : ({ c with held := held, done := done } : Controller) = c1
  generalize hnew : ({ req with arrivalCycle := m, ev := if req.write then none else req.ev } :
    Request) = req1
  obtain ⟨req2, before, after, ⟨k, hreq2⟩, hsplit, hinsert⟩ :=
    insertRequest_split cfg (c1.bankOf req1) (c1.bankQueue cfg req1) req1
  rw [hinsert]
  have hwrite : req1.write = req.write := by rw [← hnew]
  have hloc : req1.loc = req.loc := by rw [← hnew]
  have hsame : ∃ k, req2 = { req with
      rowHitSeq := k, arrivalCycle := m, ev := if req.write then none else req.ev } :=
    ⟨k, by rw [hreq2, ← hnew]⟩
  have hwrite2 : req2.write = req.write := by rw [hreq2, hwrite]
  have hloc2 : req2.loc = req.loc := by rw [hreq2, hloc]
  unfold bankQueue bankOf at hsplit
  unfold bankOf
  dsimp only
  rw [hwrite, hloc] at hsplit
  rw [hwrite2, hloc, hloc2]
  subst hbase
  cases hdeferred : cfg.deferredWrites && req.write with
  | false =>
    rw [hdeferred] at hsplit
    refine ⟨_, _, rfl, hsame, ?_, ?_, rfl, ?_, ?_, ?_, rfl, rfl, hheld, haccount⟩
    · rw [hdeferred]
      rfl
    · rw [hdeferred]
      exact (List.append_nil _).symm
    · intro rank bank
      by_cases hhere : req.loc.rank = rank ∧ req.loc.bank = bank
      · obtain ⟨rfl, rfl⟩ := hhere
        rw [if_pos ⟨hdeferred, rfl, rfl⟩]
        exact ⟨before, after, hsplit, by simp⟩
      · refine ⟨(c.banks rank bank).rdReqs, [], (List.append_nil _).symm, ?_⟩
        rw [if_neg fun h => hhere h.2, banks_setBank, if_neg fun h => hhere ⟨h.1.symm, h.2.symm⟩]
        simp
    · intro rank bank
      refine ⟨(c.banks rank bank).wrReqs, [], (List.append_nil _).symm, ?_⟩
      rw [if_neg fun h => absurd (hdeferred.symm.trans h.1) (by decide), List.append_nil,
        List.append_nil]
      exact field_setBank (·.wrReqs) (by rfl) rank bank
    · intro rank bank
      exact timing_setBank (by rfl) (by rfl) (by rfl) rank bank
  | true =>
    rw [hdeferred] at hsplit
    refine ⟨_, _, rfl, hsame, ?_, ?_, rfl, ?_, ?_, ?_, rfl, rfl, hheld, haccount⟩
    · rw [hdeferred]
      exact (List.append_nil _).symm
    · rw [hdeferred]
      rfl
    · intro rank bank
      refine ⟨(c.banks rank bank).rdReqs, [], (List.append_nil _).symm, ?_⟩
      rw [if_neg fun h => absurd (hdeferred.symm.trans h.1) (by decide), List.append_nil,
        List.append_nil]
      exact field_setBank (·.rdReqs) (by rfl) rank bank
    · intro rank bank
      by_cases hhere : req.loc.rank = rank ∧ req.loc.bank = bank
      · obtain ⟨rfl, rfl⟩ := hhere
        rw [if_pos ⟨hdeferred, rfl, rfl⟩]
        exact ⟨before, after, hsplit, by simp⟩
      · refine ⟨(c.banks rank bank).wrReqs, [], (List.append_nil _).symm, ?_⟩
        rw [if_neg fun h => hhere h.2, banks_setBank, if_neg fun h => hhere ⟨h.1.symm, h.2.symm⟩]
        simp
    · intro rank bank
      exact timing_setBank (by rfl) (by rfl) (by rfl) rank bank

namespace Queued

variable (q : Queued cfg n m req c c' req')

include q

theorem id_eq : req'.id = req.id := by
  obtain ⟨k, hk⟩ := q.same
  rw [hk]

theorem loc_eq : req'.loc = req.loc := by
  obtain ⟨k, hk⟩ := q.same
  rw [hk]

theorem write_eq : req'.write = req.write := by
  obtain ⟨k, hk⟩ := q.same
  rw [hk]

theorem mem_rd : r ∈ c'.rdQueue ↔
    r ∈ c.rdQueue ∨ (cfg.deferredWrites && req.write) = false ∧ r = req' := by
  rw [q.rd]
  cases cfg.deferredWrites && req.write <;> simp

theorem mem_wr : r ∈ c'.wrQueue ↔
    r ∈ c.wrQueue ∨ (cfg.deferredWrites && req.write) = true ∧ r = req' := by
  rw [q.wr]
  cases cfg.deferredWrites && req.write <;> simp

theorem mem_queues : r ∈ c'.rdQueue ++ c'.wrQueue ↔ r ∈ c.rdQueue ++ c.wrQueue ∨ r = req' := by
  rw [List.mem_append, q.mem_rd, q.mem_wr, List.mem_append]
  cases cfg.deferredWrites && req.write <;> simp [or_assoc, or_comm, or_left_comm]

theorem waiting_perm : (c'.waiting none).Perm (req' :: c.waiting none) := by
  unfold waiting
  rw [q.rd, q.wr, q.overflow]
  cases cfg.deferredWrites && req.write
  · simp only [Option.toList_none, List.nil_append, List.append_nil, List.append_assoc,
      List.singleton_append, Bool.false_eq_true, if_false]
    exact List.perm_middle
  · simp only [Option.toList_none, List.nil_append, List.append_nil, if_true]
    rw [← List.append_assoc, List.append_assoc (_ ++ _), List.singleton_append]
    exact List.perm_middle

theorem mem_waiting_iff : r ∈ c'.waiting none ↔ r = req' ∨ r ∈ c.waiting none := by
  rw [q.waiting_perm.mem_iff, List.mem_cons]

theorem lengths : c'.rdQueue.length + c'.wrQueue.length =
    c.rdQueue.length + c.wrQueue.length + 1 := by
  rw [q.rd, q.wr]
  cases cfg.deferredWrites && req.write <;> simp <;> omega

theorem below {b : Nat} (hb : c.Below b) : c'.Below (max b m) := by
  constructor
  case banks =>
    intro rank bank
    obtain ⟨hpre, hact, hcmd⟩ := q.timing rank bank
    have hold := hb.banks rank bank
    omega
  case windows =>
    intro rank
    rw [q.windows]
    exact le_max_of_le_left (hb.windows rank)
  case arrivals =>
    intro r hr
    obtain hr | rfl := q.mem_queues.mp hr
    · exact le_max_of_le_left (hb.arrivals r hr)
    · obtain ⟨k, hk⟩ := q.same
      rw [hk]
      exact le_max_right _ _

theorem ids_perm : ((c'.waiting none).map (·.id)).Perm ((c.waiting (some req)).map (·.id)) := by
  have hperm := q.waiting_perm.map (·.id)
  rw [List.map_cons, q.id_eq] at hperm
  exact hperm

end Queued

/-- No request that waits has the number of the one at hand. -/
theorem Inv.id_ne (h : Inv cfg n (some req) c) (hr : r ∈ c.waiting none) : r.id ≠ req.id := by
  have hids := h.ids
  have hcons : c.waiting (some req) = req :: c.waiting none := rfl
  rw [hcons, List.map_cons, List.nodup_cons] at hids
  intro hid
  exact hids.1 (hid ▸ List.mem_map_of_mem hr)

theorem mem_insert {before after q : List Request} {p : Prop} [Decidable p]
    (hsplit : q = before ++ after) :
    r ∈ before ++ (if p then [req] else []) ++ after ↔ r ∈ q ∨ p ∧ r = req := by
  subst hsplit
  simp only [List.mem_append, List.mem_ite_nil_right, List.mem_singleton, or_assoc,
    or_comm (b := r ∈ after)]

/-- The queue of a bank after one request more. -/
theorem nodup_insert {before after : List Request} {q : List Request} {p : Prop} [Decidable p]
    (hsplit : q = before ++ after) (hq : q.Nodup) (hnew : r ∉ q) :
    (before ++ (if p then [r] else []) ++ after).Nodup := by
  subst hsplit
  split
  · rw [List.append_assoc, List.singleton_append, List.nodup_middle, List.nodup_cons]
    exact ⟨hnew, hq⟩
  · rw [List.append_nil]
    exact hq

/-- The requests of a bank are those of its queue, after one request more too. -/
theorem mem_bank {before after reqs reqs' queue queue' : List Request} {p : Prop} [Decidable p]
    {rank bank : Nat} (hsplit : reqs = before ++ after)
    (hafter : reqs' = before ++
      (if p ∧ req.loc.rank = rank ∧ req.loc.bank = bank then [req] else []) ++ after)
    (hreqs : r ∈ reqs ↔ r ∈ queue ∧ r.loc.rank = rank ∧ r.loc.bank = bank)
    (hqueue : r ∈ queue' ↔ r ∈ queue ∨ p ∧ r = req) :
    r ∈ reqs' ↔ r ∈ queue' ∧ r.loc.rank = rank ∧ r.loc.bank = bank := by
  rw [hafter, mem_insert hsplit, hreqs, hqueue]
  constructor
  · rintro (⟨hr, hloc⟩ | ⟨⟨hp, hloc⟩, rfl⟩)
    · exact ⟨.inl hr, hloc⟩
    · exact ⟨.inr ⟨hp, rfl⟩, hloc⟩
  · rintro ⟨hr | ⟨hp, rfl⟩, hloc⟩
    · exact .inl ⟨hr, hloc⟩
    · exact .inr ⟨⟨hp, hloc⟩, rfl⟩

theorem Queued.ev_eq (q : Queued cfg n m req c c' req') (hown : req.ev = some req.id) :
    req'.ev = if req'.write then none else some req'.id := by
  obtain ⟨k, hk⟩ := q.same
  rw [hk, hown]

/-- The events that are held are those of the requests that wait. -/
theorem Inv.held_of_queued (h : Inv cfg n (some req) c) (q : Queued cfg n m req c c' req')
    (hown : req.ev = some req.id) (ev : Nat) :
    ev ∈ c'.held ↔ ∃ r ∈ c'.waiting none, r.ev = some ev := by
  have hev := q.ev_eq hown
  rw [q.held, h.held]
  constructor
  · rintro ⟨⟨r, hr, hrev⟩, hother⟩
    obtain hreq | hr := mem_waiting.mp hr
    · obtain rfl := Option.some.inj hreq
      refine ⟨req', q.mem_waiting_iff.mpr (.inl rfl), ?_⟩
      rw [hown] at hrev
      rw [hev, if_neg fun hwrite => hother ⟨q.write_eq ▸ hwrite, (Option.some.inj hrev).symm⟩,
        q.id_eq, hrev]
    · exact ⟨r, q.mem_waiting_iff.mpr (.inr (mem_waiting.mpr (.inr hr))), hrev⟩
  · rintro ⟨r, hr, hrev⟩
    obtain rfl | hr := q.mem_waiting_iff.mp hr
    · rw [hev] at hrev
      split at hrev
      · cases hrev
      case isFalse hread =>
        rw [q.write_eq] at hread
        exact ⟨⟨req, mem_waiting.mpr (.inl rfl), by rw [hown, ← q.id_eq, hrev]⟩,
          fun hwrite => hread hwrite.1⟩
    · have hmem : r ∈ c.waiting (some req) := List.mem_cons_of_mem _ hr
      refine ⟨⟨r, hmem, hrev⟩, fun hsame => h.id_ne hr ?_⟩
      rw [h.id_of_ev hmem hrev, hsame.2]

theorem Inv.of_queued (h : Inv cfg n (some req) c) (q : Queued cfg n m req c c' req') :
    Inv cfg n none c' := by
  have hnew : req' ∉ c.waiting none := fun hmem => h.id_ne hmem q.id_eq
  rw [mem_waiting] at hnew
  have hown : req.ev = some req.id := h.unqueued req (by simp)
  constructor
  case rd =>
    intro rank bank r
    obtain ⟨before, after, hsplit, hafter⟩ := q.rdReqs rank bank
    rw [← q.loc_eq] at hafter
    exact mem_bank hsplit hafter (h.rd rank bank r) q.mem_rd
  case wr =>
    intro rank bank r
    obtain ⟨before, after, hsplit, hafter⟩ := q.wrReqs rank bank
    rw [← q.loc_eq] at hafter
    exact mem_bank hsplit hafter (h.wr rank bank r) q.mem_wr
  case nodup =>
    intro rank bank
    obtain ⟨rbefore, rafter, hrsplit, hrafter⟩ := q.rdReqs rank bank
    obtain ⟨wbefore, wafter, hwsplit, hwafter⟩ := q.wrReqs rank bank
    rw [hrafter, hwafter]
    refine ⟨nodup_insert hrsplit (h.nodup rank bank).1 ?_,
      nodup_insert hwsplit (h.nodup rank bank).2 ?_⟩
    · intro hmem
      exact hnew (.inr (.inl ((h.rd rank bank req').mp hmem).1))
    · intro hmem
      exact hnew (.inr (.inr (.inl ((h.wr rank bank req').mp hmem).1)))
  case reads =>
    intro r hr
    obtain hr | ⟨hread, rfl⟩ := q.mem_rd.mp hr
    · exact h.reads r hr
    · rw [q.write_eq]
      exact hread
  case writes =>
    intro r hr
    obtain hr | ⟨hwrite, rfl⟩ := q.mem_wr.mp hr
    · exact h.writes r hr
    · rw [q.write_eq]
      exact hwrite
  case ids => exact q.ids_perm.nodup_iff.mpr h.ids
  case known =>
    intro r hr
    obtain rfl | hr := q.mem_waiting_iff.mp hr
    · rw [q.id_eq]
      exact h.known req (mem_waiting.mpr (.inl rfl))
    · exact h.known r (List.mem_cons_of_mem _ hr)
  case queued =>
    intro r hr
    obtain hr | rfl := q.mem_queues.mp hr
    · exact h.queued r hr
    · exact q.ev_eq hown
  case unqueued =>
    intro r hr
    rw [q.overflow] at hr
    exact h.unqueued r (List.mem_append_right _ hr)
  case held => exact h.held_of_queued q hown
  case account => exact q.account
  case resp =>
    rw [q.resp]
    exact h.resp
  case pre =>
    intro rank bank
    obtain ⟨hpre, hact, hcmd⟩ := q.timing rank bank
    have hold := h.pre rank bank
    omega
  case bounded =>
    obtain ⟨b, hb⟩ := h.bounded
    exact ⟨max b m, q.below hb⟩

/-! ### Arrivals and the `overflowQueue` -/

/-- A new request is at hand, and its event is held. -/
theorem Inv.arrive (h : Inv cfg n none c) (hid : req.id = n) (hev : req.ev = some n) :
    Inv cfg (n + 1) (some req) { c with held := n :: c.held } := by
  have hfresh : n ∉ (c.waiting none).map (·.id) := fun hmem => by
    obtain ⟨r, hr, hrid⟩ := List.mem_map.mp hmem
    have hlt := h.known r hr
    omega
  constructor
  case rd => exact h.rd
  case wr => exact h.wr
  case nodup => exact h.nodup
  case reads => exact h.reads
  case writes => exact h.writes
  case ids => exact List.nodup_cons.mpr ⟨hid ▸ hfresh, h.ids⟩
  case known =>
    intro r hr
    obtain rfl | hr := List.mem_cons.mp hr
    · omega
    · exact Nat.lt_succ_of_lt (h.known r hr)
  case queued => exact h.queued
  case unqueued =>
    intro r hr
    obtain rfl | hr := List.mem_cons.mp hr
    · rw [hev, hid]
    · exact h.unqueued r hr
  case held =>
    intro ev
    constructor
    · intro hmem
      obtain rfl | hmem := List.mem_cons.mp hmem
      · exact ⟨req, List.mem_cons_self, hev⟩
      · obtain ⟨r, hr, hrev⟩ := (h.held ev).mp hmem
        exact ⟨r, List.mem_cons_of_mem _ hr, hrev⟩
    · rintro ⟨r, hr, hrev⟩
      obtain rfl | hr := List.mem_cons.mp hr
      · rw [hev] at hrev
        exact Option.some.inj hrev ▸ List.mem_cons_self
      · exact List.mem_cons_of_mem _ ((h.held ev).mpr ⟨r, hr, hrev⟩)
  case account =>
    rw [List.range_succ]
    exact (h.account.cons n).trans (List.perm_append_singleton _ _).symm
  case resp => exact h.resp
  case pre => exact h.pre
  case bounded =>
    obtain ⟨b, hb⟩ := h.bounded
    exact ⟨b, hb.banks, hb.windows, hb.arrivals⟩

theorem swap_queues (hand queues spilled : List Request) :
    (hand ++ (queues ++ spilled)).Perm (queues ++ (hand ++ spilled)) := by
  rw [← List.append_assoc, ← List.append_assoc]
  exact List.perm_append_comm.append_right _

/-- A request gets into the `overflowQueue`, or out of it. -/
theorem Inv.move (h : Inv cfg n hand c) {hand' : Option Request} {spilled : List Request}
    (hmove : (hand'.toList ++ spilled).Perm (hand.toList ++ c.overflowQueue)) :
    Inv cfg n hand' { c with overflowQueue := spilled } := by
  have hperm : (waiting { c with overflowQueue := spilled } hand').Perm (c.waiting hand) := by
    unfold waiting
    refine (swap_queues _ _ spilled).trans ?_
    exact (hmove.append_left _).trans (swap_queues _ _ c.overflowQueue).symm
  constructor
  case rd => exact h.rd
  case wr => exact h.wr
  case nodup => exact h.nodup
  case reads => exact h.reads
  case writes => exact h.writes
  case ids => exact (hperm.map _).nodup_iff.mpr h.ids
  case known => exact fun r hr => h.known r (hperm.mem_iff.mp hr)
  case queued => exact h.queued
  case unqueued => exact fun r hr => h.unqueued r (hmove.mem_iff.mp hr)
  case held =>
    intro ev
    refine (h.held ev).trans ?_
    exact exists_congr fun r => and_congr_left' hperm.mem_iff.symm
  case account => exact h.account
  case resp => exact h.resp
  case pre => exact h.pre
  case bounded =>
    obtain ⟨b, hb⟩ := h.bounded
    exact ⟨b, hb.banks, hb.windows, hb.arrivals⟩

end Controller

end Doppelganger.Dram
