import Doppelganger.Dram.Cycles
import Mathlib.Data.List.Perm.Basic
import Mathlib.Data.List.Nodup

/-! The requests of the controller: each is in one queue, and in the queue of its bank, and its
event is held as long as it is to be answered. -/

namespace Doppelganger.Dram

namespace Controller

variable {cfg : Config} {c c' : Controller} {r : Request}

/-- No timing constraint of the banks, and no arrival, is after cycle `b`. -/
structure Below (c : Controller) (b : Nat) : Prop where
  banks : ∀ rank bank, (c.banks rank bank).minPreCycle ≤ b ∧
    (c.banks rank bank).lastActCycle ≤ b ∧ (c.banks rank bank).lastCmdCycle ≤ b
  windows : ∀ rank, (c.rankActWindows rank).minActCycle ≤ b
  arrivals : ∀ r ∈ c.rdQueue ++ c.wrQueue, r.arrivalCycle ≤ b

/-- The requests that wait, with one at `hand` that is in no queue. -/
def waiting (c : Controller) (hand : Option Request) : List Request :=
  hand.toList ++ (c.rdQueue ++ c.wrQueue ++ c.overflowQueue)

/-- `n` is the number of requests so far. -/
structure Inv (cfg : Config) (n : Nat) (hand : Option Request) (c : Controller) : Prop where
  rd : ∀ rank bank r, r ∈ (c.banks rank bank).rdReqs ↔
    r ∈ c.rdQueue ∧ r.loc.rank = rank ∧ r.loc.bank = bank
  wr : ∀ rank bank r, r ∈ (c.banks rank bank).wrReqs ↔
    r ∈ c.wrQueue ∧ r.loc.rank = rank ∧ r.loc.bank = bank
  nodup : ∀ rank bank, (c.banks rank bank).rdReqs.Nodup ∧ (c.banks rank bank).wrReqs.Nodup
  reads : ∀ r ∈ c.rdQueue, (cfg.deferredWrites && r.write) = false
  writes : ∀ r ∈ c.wrQueue, (cfg.deferredWrites && r.write) = true
  ids : ((c.waiting hand).map (·.id)).Nodup
  known : ∀ r ∈ c.waiting hand, r.id < n
  queued : ∀ r ∈ c.rdQueue ++ c.wrQueue, r.ev = if r.write then none else some r.id
  unqueued : ∀ r ∈ hand.toList ++ c.overflowQueue, r.ev = some r.id
  held : ∀ ev, ev ∈ c.held ↔ ∃ r ∈ c.waiting hand, r.ev = some ev
  account : (c.held ++ c.done.map Prod.fst).Perm (List.range n)
  resp : cfg.timing.tCL + cfg.timing.tBL < c.minRespCycle
  pre : ∀ rank bank, (c.banks rank bank).lastCmdCycle ≤ (c.banks rank bank).minPreCycle
  bounded : ∃ b, c.Below b

theorem init_inv (cfg : Config) : Inv cfg 0 none (.init cfg) := by
  constructor
  case bounded => exact ⟨0, by simp [init], by simp [init, ActWindow.init, ActWindow.minActCycle],
    by simp [init]⟩
  case account => exact List.Perm.refl _
  case resp => exact Nat.lt_succ_self _
  all_goals simp [init, waiting]

variable {n : Nat} {hand : Option Request}

theorem Inv.held_nodup (h : Inv cfg n hand c) : c.held.Nodup :=
  (List.nodup_append.mp (h.account.nodup_iff.mpr List.nodup_range)).1

/-- Two waiting requests of one number are one request. -/
theorem Inv.inj (h : Inv cfg n hand c) {r r' : Request} (hr : r ∈ c.waiting hand)
    (hr' : r' ∈ c.waiting hand) (hid : r.id = r'.id) : r = r' :=
  List.inj_on_of_nodup_map h.ids hr hr' hid

/-- The number of an event is the number of its request. -/
theorem Inv.id_of_ev (h : Inv cfg n hand c) (hr : r ∈ c.waiting hand) {ev : Nat}
    (hev : r.ev = some ev) : r.id = ev := by
  simp only [waiting, List.mem_append] at hr
  obtain hr | (hr | hr) | hr := hr
  · have hown := h.unqueued r (List.mem_append_left _ hr)
    exact Option.some.inj (hown.symm.trans hev)
  · have hown := h.queued r (List.mem_append_left _ hr)
    rw [hown] at hev
    split at hev
    · cases hev
    · exact Option.some.inj hev
  · have hown := h.queued r (List.mem_append_right _ hr)
    rw [hown] at hev
    split at hev
    · cases hev
    · exact Option.some.inj hev
  · have hown := h.unqueued r (List.mem_append_right _ hr)
    exact Option.some.inj (hown.symm.trans hev)

/-- Two controllers with the same requests, which may differ in their timing. -/
structure SameRequests (c c' : Controller) : Prop where
  rd : c'.rdQueue = c.rdQueue
  wr : c'.wrQueue = c.wrQueue
  overflow : c'.overflowQueue = c.overflowQueue
  held : c'.held = c.held
  done : c'.done = c.done
  rdReqs : ∀ rank bank, (c'.banks rank bank).rdReqs = (c.banks rank bank).rdReqs
  wrReqs : ∀ rank bank, (c'.banks rank bank).wrReqs = (c.banks rank bank).wrReqs

theorem SameRequests.waiting (s : SameRequests c c') : c'.waiting hand = c.waiting hand := by
  rw [Controller.waiting, s.rd, s.wr, s.overflow, Controller.waiting]

theorem SameRequests.trans {c'' : Controller} (s : SameRequests c c') (s' : SameRequests c' c'') :
    SameRequests c c'' where
  rd := s'.rd.trans s.rd
  wr := s'.wr.trans s.wr
  overflow := s'.overflow.trans s.overflow
  held := s'.held.trans s.held
  done := s'.done.trans s.done
  rdReqs rank bank := (s'.rdReqs rank bank).trans (s.rdReqs rank bank)
  wrReqs rank bank := (s'.wrReqs rank bank).trans (s.wrReqs rank bank)

/-- The timing constraints may change. -/
theorem Inv.retime (h : Inv cfg n hand c) (s : SameRequests c c')
    (hresp : cfg.timing.tCL + cfg.timing.tBL < c'.minRespCycle)
    (hpre : ∀ rank bank, (c'.banks rank bank).lastCmdCycle ≤ (c'.banks rank bank).minPreCycle)
    (hbounded : ∃ b, c'.Below b) : Inv cfg n hand c' := by
  constructor
  case rd => simpa only [s.rdReqs, s.rd] using h.rd
  case wr => simpa only [s.wrReqs, s.wr] using h.wr
  case nodup => simpa only [s.rdReqs, s.wrReqs] using h.nodup
  case reads => simpa only [s.rd] using h.reads
  case writes => simpa only [s.wr] using h.writes
  case ids => simpa only [s.waiting] using h.ids
  case known => simpa only [s.waiting] using h.known
  case queued => simpa only [s.rd, s.wr] using h.queued
  case unqueued => simpa only [s.overflow] using h.unqueued
  case held => simpa only [s.held, s.waiting] using h.held
  case account => simpa only [s.held, s.done] using h.account
  case resp => exact hresp
  case pre => exact hpre
  case bounded => exact hbounded

/-! ### Banks -/

@[simp] theorem banks_setBank (rank bank : Nat) (b : Bank) (rank' bank' : Nat) :
    (c.setBank rank bank b).banks rank' bank' =
      if rank' = rank ∧ bank' = bank then b else c.banks rank' bank' := by
  unfold setBank
  by_cases hrank : rank' = rank
  · by_cases hbank : bank' = bank <;> simp [hrank, hbank]
  · simp [hrank]

/-- What one bank keeps, all banks keep. -/
theorem field_setBank {α : Type*} (f : Bank → α) {rank bank : Nat} {b : Bank}
    (h : f b = f (c.banks rank bank)) (i j : Nat) :
    f ((c.setBank rank bank b).banks i j) = f (c.banks i j) := by
  rw [banks_setBank]
  split
  case isTrue hhere => rw [h, hhere.1, hhere.2]
  case isFalse => rfl

/-- The timing constraints stay when one bank keeps them. -/
theorem timing_setBank {rank bank : Nat} {b : Bank}
    (hpre : b.minPreCycle = (c.banks rank bank).minPreCycle)
    (hact : b.lastActCycle = (c.banks rank bank).lastActCycle)
    (hcmd : b.lastCmdCycle = (c.banks rank bank).lastCmdCycle) (i j : Nat) :
    ((c.setBank rank bank b).banks i j).minPreCycle = (c.banks i j).minPreCycle ∧
      ((c.setBank rank bank b).banks i j).lastActCycle = (c.banks i j).lastActCycle ∧
      ((c.setBank rank bank b).banks i j).lastCmdCycle = (c.banks i j).lastCmdCycle :=
  ⟨field_setBank (·.minPreCycle) hpre i j, field_setBank (·.lastActCycle) hact i j,
    field_setBank (·.lastCmdCycle) hcmd i j⟩

theorem forall_setBank {p : Bank → Prop} {rank bank : Nat} {b : Bank} (hb : p b)
    (h : ∀ i j, p (c.banks i j)) (i j : Nat) : p ((c.setBank rank bank b).banks i j) := by
  rw [banks_setBank]
  split
  · exact hb
  · exact h i j

/-- A bound of all but one bank and one window is one of all, when it is raised. -/
theorem exists_below (h : ∃ b, c.Below b) (rank bank rank' : Nat)
    (hqueue : ∀ r ∈ c'.rdQueue ++ c'.wrQueue, r ∉ c.rdQueue ++ c.wrQueue → r.arrivalCycle ≤ n)
    (hbanks : ∀ i j, ¬(i = rank ∧ j = bank) → c'.banks i j = c.banks i j)
    (hwindows : ∀ i, i ≠ rank' → c'.rankActWindows i = c.rankActWindows i) :
    ∃ b, c'.Below b := by
  obtain ⟨b, hb⟩ := h
  generalize hnew : c'.banks rank bank = new
  generalize hwindow : (c'.rankActWindows rank').minActCycle = act
  refine ⟨b + n + act + new.minPreCycle + new.lastActCycle + new.lastCmdCycle, ?_, ?_, ?_⟩
  · intro i j
    by_cases hij : i = rank ∧ j = bank
    · rw [hij.1, hij.2, hnew]
      omega
    · rw [hbanks i j hij]
      have hold := hb.banks i j
      omega
  · intro i
    by_cases hi : i = rank'
    · rw [hi, hwindow]
      omega
    · rw [hwindows i hi]
      have hold := hb.windows i
      omega
  · intro r hr
    by_cases hmem : r ∈ c.rdQueue ++ c.wrQueue
    · have hold := hb.arrivals r hmem
      omega
    · have hnew := hqueue r hr hmem
      omega

end Controller

end Doppelganger.Dram
