import Doppelganger.Dram.Queueing

/-! How a request leaves the queues: `trySchedule` either issues a request that is ready, or finds
the cycle at which one is. -/

namespace Doppelganger.Dram

namespace Controller

variable {cfg : Config} {c c' : Controller} {r r' : Request} {n cur sys : Nat}
  {hand : Option Request}

/-! ### Requests that are ready -/

def queueOf (c : Controller) (isWriteQueue : Bool) : List Request :=
  if isWriteQueue then c.wrQueue else c.rdQueue

/-- The queue that `trySchedule` looks at. -/
def chosen (cfg : Config) (c : Controller) : List Request := c.queueOf (c.isWriteQueue cfg)

/-- `trySchedule` finds a request to issue. -/
def Ready (cfg : Config) (c : Controller) (cur : Nat) : Prop :=
  ∃ r ∈ c.chosen cfg, c.first cfg r = true ∧ c.findMinCmdCycle cfg r ≤ cur

/-- A request that `trySchedule` looks at is ready at cycle `t` and not before. -/
def FirstReady (cfg : Config) (c : Controller) (t : Nat) : Prop :=
  ∃ r ∈ c.chosen cfg, c.first cfg r = true ∧ c.findMinCmdCycle cfg r = t

theorem FirstReady.ready {t : Nat} (h : c.FirstReady cfg t) : c.Ready cfg t := by
  obtain ⟨r, hr, hfirst, hcmd⟩ := h
  exact ⟨r, hr, hfirst, hcmd.le⟩

theorem Inv.exists_first (h : Inv cfg n hand c) (hne : c.chosen cfg ≠ []) :
    ∃ r ∈ c.chosen cfg, c.first cfg r = true := by
  obtain ⟨r, hr⟩ := List.exists_mem_of_ne_nil _ hne
  by_cases hwrite : c.isWriteQueue cfg = true
  · rw [chosen, queueOf, if_pos hwrite] at hr ⊢
    have hbank := (h.wr r.loc.rank r.loc.bank r).mpr ⟨hr, rfl, rfl⟩
    obtain ⟨f, rest, hf⟩ := List.exists_cons_of_ne_nil (List.ne_nil_of_mem hbank)
    obtain ⟨hmem, hrank, hloc⟩ := (h.wr r.loc.rank r.loc.bank f).mp (hf ▸ List.mem_cons_self)
    refine ⟨f, hmem, ?_⟩
    unfold first bankQueue bankOf
    rw [h.writes f hmem, if_pos rfl, hrank, hloc, hf]
    simp
  · rw [chosen, queueOf, if_neg hwrite] at hr ⊢
    have hbank := (h.rd r.loc.rank r.loc.bank r).mpr ⟨hr, rfl, rfl⟩
    obtain ⟨f, rest, hf⟩ := List.exists_cons_of_ne_nil (List.ne_nil_of_mem hbank)
    obtain ⟨hmem, hrank, hloc⟩ := (h.rd r.loc.rank r.loc.bank f).mp (hf ▸ List.mem_cons_self)
    refine ⟨f, hmem, ?_⟩
    unfold first bankQueue bankOf
    rw [h.reads f hmem, if_neg Bool.false_ne_true, hrank, hloc, hf]
    simp

theorem chosen_ne_nil (h : ¬(c.rdQueue = [] ∧ c.wrQueue = [])) : c.chosen cfg ≠ [] := by
  unfold chosen queueOf isWriteQueue
  intro hnil
  dsimp only at hnil
  split at hnil
  case isTrue hwrite =>
    rw [hnil] at hwrite
    have hrd : c.rdQueue = [] := by simpa using hwrite
    exact h ⟨hrd, hnil⟩
  case isFalse hread =>
    rw [hnil] at hread
    simp at hread

/-- A request that the loop finds is ready. -/
theorem findReady_some {queue : List Request} {acc next : Option Nat}
    (h : c.findReady cfg cur queue acc = (some r, next)) :
    r ∈ queue ∧ c.first cfg r = true ∧ c.findMinCmdCycle cfg r ≤ cur := by
  induction queue generalizing acc with
  | nil => cases h
  | cons f rest ih =>
    unfold findReady at h
    split at h
    case isTrue hfirst =>
      dsimp only at h
      split at h
      case isTrue hready =>
        cases h
        exact ⟨List.mem_cons_self, hfirst, hready⟩
      case isFalse =>
        obtain ⟨hmem, hrest⟩ := ih h
        exact ⟨List.mem_cons_of_mem _ hmem, hrest⟩
    case isFalse =>
      obtain ⟨hmem, hrest⟩ := ih h
      exact ⟨List.mem_cons_of_mem _ hmem, hrest⟩

/-- When the loop finds none, it finds the cycle at which the first one is ready. -/
theorem findReady_none {queue : List Request} {acc next : Option Nat}
    (h : c.findReady cfg cur queue acc = (none, next)) :
    (∀ r ∈ queue, c.first cfg r = true → cur < c.findMinCmdCycle cfg r ∧ next ≠ none) ∧
      (next = acc ∨ ∃ r ∈ queue, c.first cfg r = true ∧ next = some (c.findMinCmdCycle cfg r)) := by
  induction queue generalizing acc with
  | nil =>
    cases h
    exact ⟨fun r hr => absurd hr List.not_mem_nil, .inl rfl⟩
  | cons f rest ih =>
    unfold findReady at h
    split at h
    case isTrue hfirst =>
      dsimp only at h
      split at h
      case isTrue => cases h
      case isFalse hlate =>
        obtain ⟨hrest, hnext⟩ := ih h
        have hmin : acc.elim (c.findMinCmdCycle cfg f) (min (c.findMinCmdCycle cfg f)) =
            c.findMinCmdCycle cfg f ∨
            some (acc.elim (c.findMinCmdCycle cfg f) (min (c.findMinCmdCycle cfg f))) = acc := by
          cases acc with
          | none => exact .inl rfl
          | some old =>
            obtain hle | hle := Nat.le_total (c.findMinCmdCycle cfg f) old
            · exact .inl (Nat.min_eq_left hle)
            · exact .inr (congrArg some (Nat.min_eq_right hle))
        have hsome : next ≠ none := by
          obtain rfl | ⟨r, -, -, rfl⟩ := hnext <;> exact Option.some_ne_none _
        refine ⟨fun r hr hr1 => ?_, ?_⟩
        · obtain rfl | hr := List.mem_cons.mp hr
          · exact ⟨Nat.lt_of_not_le hlate, hsome⟩
          · exact hrest r hr hr1
        · obtain hnext | ⟨r, hr, hr1, hnext⟩ := hnext
          · obtain hmin | hmin := hmin
            · exact .inr ⟨f, List.mem_cons_self, hfirst, by rw [hnext, hmin]⟩
            · exact .inl (hnext.trans hmin)
          · exact .inr ⟨r, List.mem_cons_of_mem _ hr, hr1, hnext⟩
    case isFalse hnot =>
      obtain ⟨hrest, hnext⟩ := ih h
      refine ⟨fun r hr hr1 => ?_, ?_⟩
      · obtain rfl | hr := List.mem_cons.mp hr
        · exact absurd hr1 hnot
        · exact hrest r hr hr1
      · exact hnext.imp_right fun ⟨r, hr, hr1⟩ => ⟨r, List.mem_cons_of_mem _ hr, hr1⟩

/-! ### Issue -/

/-- ACT keeps the requests, and the order of the last commands of a bank. -/
theorem Inv.activate_spec (h : Inv cfg n hand c) (r : Request) :
    ∃ c', c.activate cfg r = some c' ∧ SameRequests c c' ∧
      (∀ rank bank, (c'.banks rank bank).lastCmdCycle = (c.banks rank bank).lastCmdCycle) ∧
      (∀ rank bank, (c'.banks rank bank).lastCmdCycle ≤ (c'.banks rank bank).minPreCycle) ∧
      (∃ b, c'.Below b) ∧ c'.minRespCycle = c.minRespCycle := by
  unfold activate
  split
  · exact ⟨c, rfl, ⟨rfl, rfl, rfl, rfl, rfl, fun _ _ => rfl, fun _ _ => rfl⟩, fun _ _ => rfl,
      h.pre, h.bounded, rfl⟩
  · have hact : (c.rankActWindows r.loc.rank).minActCycle ≤ c.actCycle cfg r :=
      Nat.le_trans (Nat.le_add_right _ _) (le_max_right _ _)
    dsimp only
    rw [ActWindow.addActivation, if_pos hact, Option.map_some]
    refine ⟨_, rfl, ⟨rfl, rfl, rfl, rfl, rfl, ?_, ?_⟩, ?_, ?_, ?_, rfl⟩
    · exact field_setBank (·.rdReqs) rfl
    · exact field_setBank (·.wrReqs) rfl
    · exact field_setBank (·.lastCmdCycle) rfl
    · refine forall_setBank (p := fun b => b.lastCmdCycle ≤ b.minPreCycle) ?_ h.pre
      dsimp only
      split
      case isTrue hopen =>
        have hpre : (c.bankOf r).minPreCycle ≤ c.preCycle r := by
          rw [preCycle, if_pos hopen]
          exact le_max_right _ _
        exact Nat.le_trans (h.pre _ _) (Nat.le_trans hpre (Nat.le_add_right _ _))
      case isFalse => exact h.pre _ _
    · refine exists_below (n := 0) h.bounded r.loc.rank r.loc.bank r.loc.rank
        (fun _ hr hnot => absurd hr hnot) (fun i j hij => ?_) (fun i hi => ?_)
      · exact (banks_setBank _ _ _ i j).trans (if_neg hij)
      · exact Function.update_of_ne hi _ _

/-- A request that was served is in no queue any more, and its event is not held. -/
structure Removed (n : Nat) (r : Request) (c c' : Controller) : Prop where
  rd : c'.rdQueue = c.rdQueue.erase r
  wr : c'.wrQueue = c.wrQueue.erase r
  overflow : c'.overflowQueue = c.overflowQueue
  rdReqs : ∀ rank bank, (c'.banks rank bank).rdReqs = (c.banks rank bank).rdReqs.erase r
  wrReqs : ∀ rank bank, (c'.banks rank bank).wrReqs = (c.banks rank bank).wrReqs.erase r
  timing : ∀ rank bank, (c'.banks rank bank).minPreCycle = (c.banks rank bank).minPreCycle ∧
    (c'.banks rank bank).lastActCycle = (c.banks rank bank).lastActCycle ∧
    (c'.banks rank bank).lastCmdCycle = (c.banks rank bank).lastCmdCycle
  windows : c'.rankActWindows = c.rankActWindows
  resp : c'.minRespCycle = c.minRespCycle
  held : ∀ ev, ev ∈ c'.held ↔ ev ∈ c.held ∧ r.ev ≠ some ev
  account : (c'.held ++ c'.done.map Prod.fst).Perm (List.range n)

theorem Inv.queues_nodup (h : Inv cfg n none c) :
    c.rdQueue.Nodup ∧ c.wrQueue.Nodup ∧ ∀ r ∈ c.rdQueue ++ c.wrQueue, r ∉ c.overflowQueue := by
  have hnodup : (c.rdQueue ++ c.wrQueue ++ c.overflowQueue).Nodup := h.ids.of_map
  obtain ⟨hqueues, -, hdisj⟩ := List.nodup_append.mp hnodup
  obtain ⟨hrd, hwr, -⟩ := List.nodup_append.mp hqueues
  exact ⟨hrd, hwr, fun r hr hov => hdisj r hr r hov rfl⟩

/-- A request is in one of `rdQueue` and `wrQueue`. -/
theorem Inv.not_both (h : Inv cfg n hand c) (hrd : r ∈ c.rdQueue) (hwr : r ∈ c.wrQueue) :
    False := by
  have hread := h.reads r hrd
  rw [h.writes r hwr] at hread
  cases hread

theorem Removed.mem_waiting (q : Removed n r c c') (h : Inv cfg n none c)
    (hr : r ∈ c.rdQueue ++ c.wrQueue) : r' ∈ c'.waiting none ↔ r' ∈ c.waiting none ∧ r' ≠ r := by
  obtain ⟨hrd, hwr, hov⟩ := h.queues_nodup
  rw [Controller.mem_waiting, Controller.mem_waiting, q.rd, q.wr, q.overflow, hrd.mem_erase_iff,
    hwr.mem_erase_iff]
  constructor
  · rintro (hnone | ⟨hne, hmem⟩ | ⟨hne, hmem⟩ | hmem)
    · cases hnone
    · exact ⟨.inr (.inl hmem), hne⟩
    · exact ⟨.inr (.inr (.inl hmem)), hne⟩
    · exact ⟨.inr (.inr (.inr hmem)), fun heq => hov r hr (heq ▸ hmem)⟩
  · rintro ⟨hnone | hmem | hmem | hmem, hne⟩
    · cases hnone
    · exact .inr (.inl ⟨hne, hmem⟩)
    · exact .inr (.inr (.inl ⟨hne, hmem⟩))
    · exact .inr (.inr (.inr hmem))

theorem Removed.mem_queues (q : Removed n r c c') (hr : r' ∈ c'.rdQueue ++ c'.wrQueue) :
    r' ∈ c.rdQueue ++ c.wrQueue := by
  rw [q.rd, q.wr] at hr
  obtain hr | hr := List.mem_append.mp hr
  · exact List.mem_append_left _ (List.mem_of_mem_erase hr)
  · exact List.mem_append_right _ (List.mem_of_mem_erase hr)

theorem Inv.of_removed (h : Inv cfg n none c) (hr : r ∈ c.rdQueue ++ c.wrQueue)
    (q : Removed n r c c') : Inv cfg n none c' := by
  obtain ⟨hrd, hwr, -⟩ := h.queues_nodup
  have hwait : r ∈ c.waiting none :=
    Controller.mem_waiting.mpr (.inr ((List.mem_append.mp hr).imp_right .inl))
  constructor
  case rd =>
    intro rank bank r'
    rw [q.rdReqs, (h.nodup rank bank).1.mem_erase_iff, h.rd, q.rd, hrd.mem_erase_iff]
    exact ⟨fun ⟨hne, hmem, hloc⟩ => ⟨⟨hne, hmem⟩, hloc⟩,
      fun ⟨⟨hne, hmem⟩, hloc⟩ => ⟨hne, hmem, hloc⟩⟩
  case wr =>
    intro rank bank r'
    rw [q.wrReqs, (h.nodup rank bank).2.mem_erase_iff, h.wr, q.wr, hwr.mem_erase_iff]
    exact ⟨fun ⟨hne, hmem, hloc⟩ => ⟨⟨hne, hmem⟩, hloc⟩,
      fun ⟨⟨hne, hmem⟩, hloc⟩ => ⟨hne, hmem, hloc⟩⟩
  case nodup =>
    intro rank bank
    rw [q.rdReqs, q.wrReqs]
    exact ⟨(h.nodup rank bank).1.erase r, (h.nodup rank bank).2.erase r⟩
  case reads => exact fun r' hr' => h.reads r' (List.mem_of_mem_erase (q.rd ▸ hr'))
  case writes => exact fun r' hr' => h.writes r' (List.mem_of_mem_erase (q.wr ▸ hr'))
  case ids =>
    refine h.ids.sublist (List.Sublist.map _ ?_)
    show (c'.rdQueue ++ c'.wrQueue ++ c'.overflowQueue).Sublist _
    rw [q.rd, q.wr, q.overflow]
    exact (List.erase_sublist.append List.erase_sublist).append_right _
  case known => exact fun r' hr' => h.known r' ((q.mem_waiting h hr).mp hr').1
  case queued => exact fun r' hr' => h.queued r' (q.mem_queues hr')
  case unqueued => exact fun r' hr' => h.unqueued r' (q.overflow ▸ hr')
  case held =>
    intro ev
    rw [q.held, h.held]
    constructor
    · rintro ⟨⟨r', hr', hev⟩, hne⟩
      exact ⟨r', (q.mem_waiting h hr).mpr ⟨hr', fun heq => hne (heq ▸ hev)⟩, hev⟩
    · rintro ⟨r', hr', hev⟩
      obtain ⟨hr', hne⟩ := (q.mem_waiting h hr).mp hr'
      refine ⟨⟨r', hr', hev⟩, fun hsame => hne (h.inj hr' hwait ?_)⟩
      rw [h.id_of_ev hr' hev, h.id_of_ev hwait hsame]
  case account => exact q.account
  case resp => exact q.resp ▸ h.resp
  case pre =>
    intro rank bank
    obtain ⟨hpre, -, hcmd⟩ := q.timing rank bank
    rw [hpre, hcmd]
    exact h.pre rank bank
  case bounded =>
    obtain ⟨b, hb⟩ := h.bounded
    refine ⟨b, fun rank bank => ?_, fun rank => q.windows ▸ hb.windows rank, fun r' hr' => ?_⟩
    · obtain ⟨hpre, hact, hcmd⟩ := q.timing rank bank
      rw [hpre, hact, hcmd]
      exact hb.banks rank bank
    · exact hb.arrivals r' (q.mem_queues hr')

/-- The first request of a bank is not in another bank's queue, nor in the other queue. -/
theorem Inv.dequeue_removed (h : Inv cfg n none c) {w : Bool} (hr : r ∈ c.queueOf w)
    (hfirst : c.first cfg r = true) {held : List Nat} {done : List (Nat × Nat)}
    (hheld : ∀ ev, ev ∈ held ↔ ev ∈ c.held ∧ r.ev ≠ some ev)
    (haccount : (held ++ done.map Prod.fst).Perm (List.range n)) :
    Removed n r c ({ c with held := held, done := done }.dequeue r w) := by
  unfold first bankQueue at hfirst
  unfold queueOf at hr
  unfold dequeue
  split
  case isTrue hwrite =>
    rw [if_pos hwrite] at hr
    have hkind := h.writes r hr
    rw [hkind, if_pos rfl, decide_eq_true_eq] at hfirst
    obtain ⟨rest, hrest⟩ := List.head?_eq_some_iff.mp hfirst
    have hout : r ∉ c.rdQueue := fun hmem => h.not_both hmem hr
    refine ⟨(List.erase_of_not_mem hout).symm, rfl, rfl, fun i j => ?_, fun i j => ?_,
      fun i j => ?_, rfl, rfl, hheld, haccount⟩
    · rw [List.erase_of_not_mem fun hmem => hout ((h.rd i j r).mp hmem).1]
      exact field_setBank (·.rdReqs) (by rfl) i j
    · refine (congrArg Bank.wrReqs (banks_setBank _ _ _ i j)).trans ?_
      split
      case isTrue hhere =>
        rw [hhere.1, hhere.2]
        show (c.bankOf r).wrReqs.tail = (c.bankOf r).wrReqs.erase r
        rw [hrest, List.tail_cons, List.erase_cons_head]
      case isFalse hother =>
        refine (List.erase_of_not_mem fun hmem => hother ?_).symm
        obtain ⟨-, hrank, hbank⟩ := (h.wr i j r).mp hmem
        exact ⟨hrank.symm, hbank.symm⟩
    · exact timing_setBank (by rfl) (by rfl) (by rfl) i j
  case isFalse hread =>
    rw [if_neg hread] at hr
    have hkind := h.reads r hr
    rw [hkind, if_neg Bool.false_ne_true, decide_eq_true_eq] at hfirst
    obtain ⟨rest, hrest⟩ := List.head?_eq_some_iff.mp hfirst
    have hout : r ∉ c.wrQueue := fun hmem => h.not_both hr hmem
    refine ⟨rfl, (List.erase_of_not_mem hout).symm, rfl, fun i j => ?_, fun i j => ?_,
      fun i j => ?_, rfl, rfl, hheld, haccount⟩
    · refine (congrArg Bank.rdReqs (banks_setBank _ _ _ i j)).trans ?_
      split
      case isTrue hhere =>
        rw [hhere.1, hhere.2]
        show (c.bankOf r).rdReqs.tail = (c.bankOf r).rdReqs.erase r
        rw [hrest, List.tail_cons, List.erase_cons_head]
      case isFalse hother =>
        refine (List.erase_of_not_mem fun hmem => hother ?_).symm
        obtain ⟨-, hrank, hbank⟩ := (h.rd i j r).mp hmem
        exact ⟨hrank.symm, hbank.symm⟩
    · rw [List.erase_of_not_mem fun hmem => hout ((h.wr i j r).mp hmem).1]
      exact field_setBank (·.wrReqs) (by rfl) i j
    · exact timing_setBank (by rfl) (by rfl) (by rfl) i j

theorem mem_queueOf {w : Bool} (hr : r ∈ c.queueOf w) : r ∈ c.rdQueue ++ c.wrQueue := by
  unfold queueOf at hr
  split at hr
  · exact List.mem_append_right _ hr
  · exact List.mem_append_left _ hr

/-- A request that is first in its bank is answered and dequeued. -/
theorem Inv.serve (h : Inv cfg n none c) {w : Bool} (hr : r ∈ c.queueOf w)
    (hfirst : c.first cfg r = true)
    (hsys : sys ≤ cfg.memToSysCycle c.minRespCycle + cfg.controllerSysLatency) :
    ∃ c', (c.respond cfg r sys).map (fun c1 => c1.dequeue r w) = some c' ∧
      Removed n r c c' := by
  have hqueues := mem_queueOf hr
  have hev := h.queued r hqueues
  have hwait : r ∈ c.waiting none :=
    Controller.mem_waiting.mpr (.inr ((List.mem_append.mp hqueues).imp_right .inl))
  unfold respond
  cases hwrite : r.write with
  | true =>
    rw [hwrite, if_pos rfl] at hev
    rw [hev]
    refine ⟨_, rfl, h.dequeue_removed hr hfirst (fun ev => ?_) h.account⟩
    rw [hev]
    exact (and_iff_left (by simp)).symm
  | false =>
    rw [hwrite, if_neg Bool.false_ne_true] at hev
    have hmem : r.id ∈ c.held := (h.held _).mpr ⟨r, hwait, hev⟩
    rw [hev]
    dsimp only
    rw [if_pos ⟨rfl, hsys⟩, finishEvent_of_mem hmem]
    refine ⟨_, rfl, h.dequeue_removed hr hfirst (fun ev => ?_) (account_finish h.account hmem _)⟩
    rw [h.held_nodup.mem_erase_iff, hev, and_comm]
    refine and_congr_right' ?_
    simp [eq_comm]

theorem SameRequests.first (q : SameRequests c c') : c'.first cfg r = c.first cfg r := by
  unfold Controller.first bankQueue bankOf
  rw [q.wrReqs, q.rdReqs]

theorem SameRequests.queueOf (q : SameRequests c c') (w : Bool) : c'.queueOf w = c.queueOf w := by
  unfold Controller.queueOf
  rw [q.wr, q.rd]

theorem le_cmdCycle : cur ≤ c.cmdCycle cfg r cur := by
  unfold cmdCycle
  dsimp only
  split <;> split <;> omega

theorem le_preCycle : (c.bankOf r).minPreCycle ≤ c.preCycle r := by
  unfold preCycle
  dsimp only
  split
  · exact le_max_right _ _
  · exact Nat.le_refl _

/-- A request that is ready comes after the last command of its bank. -/
theorem lastCmd_lt (hpre : (c.bankOf r).lastCmdCycle ≤ (c.bankOf r).minPreCycle)
    (hpos : 0 < cfg.timing.tRCD) (hready : c.findMinCmdCycle cfg r ≤ cur) :
    (c.bankOf r).lastCmdCycle < cur := by
  have hclosed : (c.bankOf r).minPreCycle ≤ c.preCycle r := le_preCycle
  unfold findMinCmdCycle at hready
  split at hready
  · omega
  · unfold actCycle at hready
    omega

/-- The controller after a request was issued. -/
structure Served (cfg : Config) (n cur : Nat) (c c' : Controller) : Prop where
  inv : Inv cfg n none c'
  total : c'.rdQueue.length + c'.wrQueue.length + 1 = c.rdQueue.length + c.wrQueue.length
  overflow : c'.overflowQueue = c.overflowQueue
  resp : cur + cfg.timing.tCL ≤ c'.minRespCycle

theorem Removed.total (q : Removed n r c c') (h : Inv cfg n none c) {w : Bool}
    (hr : r ∈ c.queueOf w) :
    c'.rdQueue.length + c'.wrQueue.length + 1 = c.rdQueue.length + c.wrQueue.length := by
  rw [q.rd, q.wr]
  unfold queueOf at hr
  split at hr
  · have hout : r ∉ c.rdQueue := fun hmem => h.not_both hmem hr
    have hpos := List.length_pos_of_mem hr
    rw [List.erase_of_not_mem hout, List.length_erase_of_mem hr]
    omega
  · have hout : r ∉ c.wrQueue := fun hmem => h.not_both hr hmem
    have hpos := List.length_pos_of_mem hr
    rw [List.erase_of_not_mem hout, List.length_erase_of_mem hr]
    omega

theorem record_same (r : Request) (cmdCycle : Nat) : SameRequests c (c.record cfg r cmdCycle) :=
  ⟨rfl, rfl, rfl, rfl, rfl, field_setBank (·.rdReqs) (by rfl), field_setBank (·.wrReqs) (by rfl)⟩

theorem Inv.record (h : Inv cfg n hand c) (r : Request) {cmdCycle : Nat} (hpos : 0 < cmdCycle) :
    Inv cfg n hand (c.record cfg r cmdCycle) := by
  refine h.retime (record_same r cmdCycle) ?_ (fun i j => ?_) ?_
  · show cfg.timing.tCL + cfg.timing.tBL < cmdCycle + cfg.timing.tCL + cfg.timing.tBL
    omega
  · refine forall_setBank (p := fun b => b.lastCmdCycle ≤ b.minPreCycle) ?_ h.pre i j
    unfold issueBank
    dsimp only
    split <;> omega
  · exact exists_below (n := 0) h.bounded r.loc.rank r.loc.bank 0
      (fun _ hr hnot => absurd hr hnot)
      (fun i j hij => (banks_setBank _ _ _ i j).trans (if_neg hij)) fun _ _ => rfl

theorem Inv.issue_spec (h : Inv cfg n none c) (hv : cfg.Valid) {w : Bool} (hr : r ∈ c.queueOf w)
    (hfirst : c.first cfg r = true) (hready : c.findMinCmdCycle cfg r ≤ cur)
    (hsys : cfg.sysToMemCycle sys ≤ cur) :
    ∃ c', c.issue cfg r w cur sys = some c' ∧ Served cfg n cur c c' := by
  obtain ⟨c1, hact, hsame, hcmd, hpre, hbounded, hresp⟩ := h.activate_spec r
  have hge : cur ≤ c.cmdCycle cfg r cur := le_cmdCycle
  have hlast : (c1.bankOf r).lastCmdCycle < c.cmdCycle cfg r cur := by
    have hold : (c1.bankOf r).lastCmdCycle = (c.bankOf r).lastCmdCycle := hcmd _ _
    have hlt := lastCmd_lt (h.pre _ _) hv.act_pos hready
    omega
  unfold issue
  dsimp only
  rw [hact, Option.bind_some, if_pos hlast]
  generalize c.cmdCycle cfg r cur = cmd at hge hlast ⊢
  have h1 : Inv cfg n none c1 := h.retime hsame (hresp ▸ h.resp) hpre hbounded
  have hpos := cfg.sysToMemCycle_pos sys
  have h2 := h1.record r (show 0 < cmd by omega)
  have hsame2 : SameRequests c (c1.record cfg r cmd) := hsame.trans (record_same r cmd)
  have hresp2 : cur + cfg.timing.tCL ≤ (c1.record cfg r cmd).minRespCycle := by
    show cur + cfg.timing.tCL ≤ cmd + cfg.timing.tCL + cfg.timing.tBL
    omega
  have hdone : sys ≤ cfg.memToSysCycle (c1.record cfg r cmd).minRespCycle +
      cfg.controllerSysLatency :=
    (hv.le_memToSysCycle (hsys.trans ((Nat.le_add_right _ _).trans hresp2))).trans
      (Nat.le_add_right _ _)
  obtain ⟨c', hserve, hremoved⟩ := h2.serve (hsame2.queueOf w ▸ hr)
    (hsame2.first.trans hfirst) hdone
  have hmem := mem_queueOf (hsame2.queueOf w ▸ hr)
  refine ⟨c', hserve, h2.of_removed hmem hremoved, ?_, ?_, ?_⟩
  · have htotal := hremoved.total h2 (hsame2.queueOf w ▸ hr)
    rw [hsame2.rd, hsame2.wr] at htotal
    exact htotal
  · exact hremoved.overflow.trans hsame2.overflow
  · rw [hremoved.resp]
    exact hresp2

/-- `trySchedule` has nothing to do, or waits, or issues a request. -/
theorem Inv.trySchedule_cases (h : Inv cfg n none c) (hv : cfg.Valid)
    (hsys : cfg.sysToMemCycle sys ≤ cur) :
    (c.rdQueue = [] ∧ c.wrQueue = []) ∧ c.trySchedule cfg cur sys = some (c, none) ∨
    ¬(c.rdQueue = [] ∧ c.wrQueue = []) ∧
      ((∃ t, c.trySchedule cfg cur sys = some (c, some t) ∧ cur < t ∧
        (cur + cfg.timing.tCL < c.minRespCycle ∧ t = c.minRespCycle - cfg.timing.tCL ∨
          c.minRespCycle ≤ cur + cfg.timing.tCL ∧ ¬c.Ready cfg cur ∧ c.FirstReady cfg t)) ∨
      ∃ c', Served cfg n cur c c' ∧ c.trySchedule cfg cur sys = some (c',
        if c'.rdQueue = [] ∧ c'.wrQueue = [] then none
        else some (c'.minRespCycle - cfg.timing.tCL))) := by
  unfold trySchedule
  split
  case isTrue hempty => exact .inl ⟨hempty, rfl⟩
  case isFalse hqueues =>
    refine .inr ⟨hqueues, ?_⟩
    split
    case isTrue hearly => exact .inl ⟨_, rfl, by omega, .inl ⟨hearly, rfl⟩⟩
    case isFalse hlate =>
      have hchosen : c.chosen cfg ≠ [] := chosen_ne_nil hqueues
      have hne : (if c.isWriteQueue cfg then c.wrQueue else c.rdQueue) ≠ [] := hchosen
      dsimp only
      rw [if_neg hne]
      cases hfind : c.findReady cfg cur
        (if c.isWriteQueue cfg then c.wrQueue else c.rdQueue) none with
      | mk found next =>
        cases found with
        | some r =>
          obtain ⟨hmem, hfirst, hready⟩ := findReady_some hfind
          obtain ⟨c', hissue, hserved⟩ :=
            h.issue_spec hv (w := c.isWriteQueue cfg) hmem hfirst hready hsys
          refine .inr ⟨c', hserved, ?_⟩
          dsimp only
          rw [hissue, Option.map_some]
        | none =>
          obtain ⟨hnone, hnext⟩ := findReady_none hfind
          obtain ⟨r, hr, hfirst⟩ := h.exists_first hchosen
          have hsome := (hnone r hr hfirst).2
          obtain rfl | ⟨r', hr', hfirst', rfl⟩ := hnext
          · exact absurd rfl hsome
          · refine .inl ⟨_, rfl, (hnone r' hr' hfirst').1, .inr ⟨Nat.le_of_not_lt hlate, ?_, ?_⟩⟩
            · rintro ⟨r1, hr1, hfirst1, hready⟩
              exact absurd hready (Nat.not_le_of_lt (hnone r1 hr1 hfirst1).1)
            · exact ⟨r', hr', hfirst', rfl⟩

end Controller

end Doppelganger.Dram
