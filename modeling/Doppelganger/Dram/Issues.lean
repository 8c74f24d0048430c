import Doppelganger.Dram.Commands
import Doppelganger.Dram.Service

/-! What the steps of the controller do to the timing: queueing a request and answering one leave it
as it is, and issuing one changes the cycles of one bank. -/

namespace Doppelganger.Dram

open Lib

/-- A bank without its requests. -/
def Bank.timing (b : Bank) : Bank := { b with rdReqs := [], wrReqs := [] }

/-- The place is in one of the banks that there are. -/
def Config.InRange (cfg : Config) (l : AddrLoc) : Prop :=
  l.rank < cfg.ranksPerChannel ∧ l.bank < cfg.banksPerRank

theorem Config.mapLineAddr_inRange {cfg : Config} {lineAddr : UInt64} {loc : AddrLoc}
    (h : cfg.mapLineAddr lineAddr = some loc) : cfg.InRange loc := by
  unfold Config.mapLineAddr at h
  dsimp only at h
  split at h
  case isTrue hin =>
    cases h
    exact hin
  case isFalse => cases h

namespace Controller

variable {cfg : Config} {c c' : Controller} {r r' req : Request} {n cur sys m : Nat}

/-- The requests of the controller. -/
def requests (c : Controller) : List Request := c.rdQueue ++ c.wrQueue ++ c.overflowQueue

/-- Neither the banks nor the bus have seen a command, and requests may have come. -/
structure SameTiming (cfg : Config) (c c' : Controller) : Prop where
  resp : c'.minRespCycle = c.minRespCycle
  wrote : c'.lastCmdWasWrite = c.lastCmdWasWrite
  banks : ∀ i j, (c'.banks i j).timing = (c.banks i j).timing
  requests : (∀ r ∈ c.requests, cfg.InRange r.loc) → ∀ r ∈ c'.requests, cfg.InRange r.loc

theorem SameTiming.refl (cfg : Config) (c : Controller) : SameTiming cfg c c :=
  ⟨rfl, rfl, fun _ _ => rfl, fun h => h⟩

theorem SameTiming.trans {c'' : Controller} (h : SameTiming cfg c c')
    (h' : SameTiming cfg c' c'') : SameTiming cfg c c'' where
  resp := h'.resp.trans h.resp
  wrote := h'.wrote.trans h.wrote
  banks i j := (h'.banks i j).trans (h.banks i j)
  requests hc := h'.requests (h.requests hc)

theorem mem_requests : r ∈ c.requests ↔ r ∈ c.rdQueue ∨ r ∈ c.wrQueue ∨ r ∈ c.overflowQueue := by
  unfold requests
  rw [List.mem_append, List.mem_append, or_assoc]

theorem finishEvent_same {ev cycle : Nat} (h : c.finishEvent ev cycle = some c') :
    SameTiming cfg c c' := by
  obtain ⟨-, h⟩ := Option.ite_none_right_eq_some.mp h
  cases h
  exact ⟨rfl, rfl, fun _ _ => rfl, fun h => h⟩

theorem insertRequest_loc (cfg : Config) (bank : Bank) (q : List Request) (req : Request) :
    (insertRequest cfg bank q req).1.loc = req.loc := by
  unfold insertRequest
  dsimp only
  split <;> split <;> rfl

/-- A request that is queued keeps its place. -/
theorem queue_same (hin : cfg.InRange req.loc) (h : c.queue cfg req m = some (c', req')) :
    SameTiming cfg c c' := by
  unfold queue at h
  dsimp only at h
  obtain ⟨c1, hanswered, heq⟩ := Option.map_eq_some_iff.mp h
  have h1 : SameTiming cfg c c1 := by
    split at hanswered
    · obtain ⟨ev, -, hfinish⟩ := Option.bind_eq_some_iff.mp hanswered
      exact finishEvent_same hfinish
    · cases hanswered
      exact .refl cfg c
  refine h1.trans ?_
  have hloc := insertRequest_loc cfg
    (c1.bankOf { req with arrivalCycle := m, ev := if req.write then none else req.ev })
    (c1.bankQueue cfg { req with arrivalCycle := m, ev := if req.write then none else req.ev })
    { req with arrivalCycle := m, ev := if req.write then none else req.ev }
  generalize insertRequest cfg _ _ _ = inserted at heq hloc
  split at heq
  all_goals
    obtain ⟨rfl, rfl⟩ := Prod.mk.inj heq
    refine ⟨rfl, rfl, field_setBank Bank.timing (by rw [hloc]; rfl), fun hc r hr => ?_⟩
    have hr := mem_requests.mp hr
    have hnew : cfg.InRange inserted.1.loc := hloc ▸ hin
  · obtain hr | hr | hr := hr
    · exact hc r (mem_requests.mpr (.inl hr))
    · obtain hr | hr := List.mem_append.mp hr
      · exact hc r (mem_requests.mpr (.inr (.inl hr)))
      · exact List.mem_singleton.mp hr ▸ hnew
    · exact hc r (mem_requests.mpr (.inr (.inr hr)))
  · obtain hr | hr | hr := hr
    · obtain hr | hr := List.mem_append.mp hr
      · exact hc r (mem_requests.mpr (.inl hr))
      · exact List.mem_singleton.mp hr ▸ hnew
    · exact hc r (mem_requests.mpr (.inr (.inl hr)))
    · exact hc r (mem_requests.mpr (.inr (.inr hr)))

/-- What the commands of a request leave behind. -/
structure Issued (cfg : Config) (cur : Nat) (r : Request) (c c' : Controller) : Prop where
  resp : c'.minRespCycle = c.cmdCycle cfg r cur + cfg.timing.tCL + cfg.timing.tBL
  wrote : c'.lastCmdWasWrite = r.write
  others : ∀ i j, ¬(i = r.loc.rank ∧ j = r.loc.bank) →
    (c'.banks i j).timing = (c.banks i j).timing
  row : (c'.bankOf r).isOpen = true → (c'.bankOf r).openRow = r.loc.row
  cmd : (c'.bankOf r).lastCmdCycle = c.cmdCycle cfg r cur
  pre : (c.bankOf r).minPreCycle ≤ (c'.bankOf r).minPreCycle
  act : c.rowHit r = false → c.actCycle cfg r + cfg.timing.tRAS ≤ (c'.bankOf r).minPreCycle
  column : cfg.timing.recovered r.write (c.cmdCycle cfg r cur) ≤ (c'.bankOf r).minPreCycle
  requests : ∀ r' ∈ c'.requests, r' ∈ c.requests

theorem activate_isSome (cfg : Config) (c : Controller) (r : Request) :
    ∃ c', c.activate cfg r = some c' := by
  unfold activate
  split
  · exact ⟨c, rfl⟩
  · have hact : (c.rankActWindows r.loc.rank).minActCycle ≤ c.actCycle cfg r :=
      Nat.le_trans (Nat.le_add_right _ _) (le_max_right _ _)
    dsimp only
    rw [ActWindow.addActivation, if_pos hact, Option.map_some]
    exact ⟨_, rfl⟩

/-- A row that is opened, or that was open. -/
theorem activate_spec (h : c.activate cfg r = some c') :
    ∃ b, (∀ i j, c'.banks i j = if i = r.loc.rank ∧ j = r.loc.bank then b else c.banks i j) ∧
      c'.minRespCycle = c.minRespCycle ∧ c'.requests = c.requests ∧ b.isOpen = true ∧
      b.openRow = r.loc.row ∧ b.lastCmdCycle = (c.bankOf r).lastCmdCycle ∧
      (c.bankOf r).minPreCycle ≤ b.minPreCycle ∧
      (c.rowHit r = false → b.lastActCycle = c.actCycle cfg r) := by
  unfold activate at h
  split at h
  case isTrue hhit =>
    cases h
    have hrow := hhit
    unfold rowHit at hrow
    obtain ⟨hrow, hopen⟩ := (Bool.and_eq_true _ _).mp hrow
    refine ⟨c.bankOf r, fun i j => ?_, rfl, rfl, hopen, (of_decide_eq_true hrow).symm, rfl, le_rfl,
      fun hmiss => absurd (hhit.symm.trans hmiss) (by decide)⟩
    split
    case isTrue hhere => rw [hhere.1, hhere.2]; rfl
    case isFalse => rfl
  case isFalse =>
    obtain ⟨w, -, rfl⟩ := Option.map_eq_some_iff.mp h
    refine ⟨_, banks_setBank _ _ _, rfl, rfl, rfl, rfl, rfl, ?_, fun _ => rfl⟩
    unfold preCycle
    dsimp only
    split
    · have hle := le_max_right r.arrivalCycle (c.bankOf r).minPreCycle
      omega
    · exact le_rfl

/-- The response to a request, and its removal, leave the timing as it is. -/
theorem respond_dequeue_same {w : Bool}
    (h : (c.respond cfg r sys).map (fun c => c.dequeue r w) = some c') :
    c'.minRespCycle = c.minRespCycle ∧ c'.lastCmdWasWrite = c.lastCmdWasWrite ∧
      (∀ i j, (c'.banks i j).timing = (c.banks i j).timing) ∧
      ∀ r' ∈ c'.requests, r' ∈ c.requests := by
  obtain ⟨c1, hrespond, rfl⟩ := Option.map_eq_some_iff.mp h
  have h1 : ∃ held done, c1 = { c with held := held, done := done } := by
    unfold respond at hrespond
    split at hrespond
    · obtain ⟨-, hfinish⟩ := Option.ite_none_right_eq_some.mp hrespond
      obtain ⟨-, hfinish⟩ := Option.ite_none_right_eq_some.mp hfinish
      exact ⟨_, _, (Option.some.inj hfinish).symm⟩
    · exact ⟨_, _, (Option.some.inj hrespond).symm⟩
  obtain ⟨held, done, rfl⟩ := h1
  unfold dequeue
  split
  all_goals
    refine ⟨rfl, rfl, field_setBank Bank.timing rfl, fun r' hr' => ?_⟩
    have hr' := mem_requests.mp hr'
    apply mem_requests.mpr
  · exact hr'.imp_right (Or.imp_left List.mem_of_mem_erase)
  · exact hr'.imp_left List.mem_of_mem_erase

theorem issue_spec {w : Bool} (h : c.issue cfg r w cur sys = some c') :
    Issued cfg cur r c c' ∧ (c.bankOf r).lastCmdCycle < c.cmdCycle cfg r cur := by
  obtain ⟨c1, hact, h⟩ := Option.bind_eq_some_iff.mp h
  obtain ⟨hlast, h⟩ := Option.ite_none_right_eq_some.mp h
  obtain ⟨b, hbanks, hresp, hrequests, hopen, hrow, hcmd, hpre, hlastAct⟩ := activate_spec hact
  obtain ⟨hresp', hwrote', hbanks', hrequests'⟩ := respond_dequeue_same h
  have hb : c1.bankOf r = b := (hbanks _ _).trans (if_pos ⟨rfl, rfl⟩)
  have hhere : (c'.bankOf r).timing =
      (issueBank cfg b r (c1.bankQueue cfg r).tail.head? (c.cmdCycle cfg r cur)).timing := by
    refine (hbanks' _ _).trans (congrArg Bank.timing ?_)
    exact ((banks_setBank _ _ _ _ _).trans (if_pos ⟨rfl, rfl⟩)).trans (by rw [hb])
  have hminPre : (c'.bankOf r).minPreCycle = max b.minPreCycle
      (max (b.lastActCycle + cfg.timing.tRAS) (cfg.timing.recovered r.write
        (c.cmdCycle cfg r cur))) := congrArg Bank.minPreCycle hhere
  rw [hb, hcmd] at hlast
  refine ⟨?_, hlast⟩
  constructor
  case resp => exact hresp'
  case wrote => exact hwrote'
  case others =>
    intro i j hij
    refine (hbanks' i j).trans (congrArg Bank.timing ?_)
    exact ((banks_setBank _ _ _ _ _).trans (if_neg hij)).trans ((hbanks i j).trans (if_neg hij))
  case row =>
    intro _
    exact (congrArg Bank.openRow hhere).trans hrow
  case cmd => exact congrArg Bank.lastCmdCycle hhere
  case pre => omega
  case act =>
    intro hmiss
    rw [← hlastAct hmiss]
    omega
  case column => omega
  case requests => exact fun r' hr' => hrequests ▸ hrequests' r' hr'

end Controller

end Doppelganger.Dram
