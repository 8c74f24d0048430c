import Doppelganger.Dram.DDRMemory
import Doppelganger.Dram.Scheduling

/-! What a tick and a refresh make of the controller.  A tick that serves or admits no request
leaves it as it is, and comes back when a request is ready; a refresh only delays requests, and for
a time that is bounded. -/

namespace Doppelganger.Dram

/-- A request is ready at most this long after the last timing constraint. -/
def Config.readyDelay (cfg : Config) : Nat :=
  cfg.timing.tRP + cfg.timing.tRRD + cfg.timing.tFAW + cfg.timing.tRCD

namespace Controller

variable {cfg : Config} {c c' : Controller} {r req req' : Request} {n m b cur sys : Nat}

/-- `rdQueue` and `wrQueue` are empty. -/
def Empty (c : Controller) : Prop := c.rdQueue = [] ∧ c.wrQueue = []

/-- Serving a request or admitting one makes this less. -/
def weight (c : Controller) : Nat :=
  c.rdQueue.length + c.wrQueue.length + 2 * c.overflowQueue.length

/-! ### When a request is ready -/

theorem Below.findMinCmdCycle_le (hb : c.Below b) (hpos : 0 < cfg.timing.tRCD)
    (hr : r ∈ c.rdQueue ++ c.wrQueue) : c.findMinCmdCycle cfg r ≤ b + cfg.readyDelay := by
  have hbank := hb.banks r.loc.rank r.loc.bank
  have hwindow := hb.windows r.loc.rank
  have harrival := hb.arrivals r hr
  have hpre : c.preCycle r ≤ b := by
    unfold preCycle bankOf
    dsimp only
    split <;> omega
  unfold findMinCmdCycle actCycle bankOf Config.readyDelay
  split <;> omega

theorem FirstReady.le_of_below {t : Nat} (h : c.FirstReady cfg t) (hpos : 0 < cfg.timing.tRCD)
    (hb : c.Below b) : t ≤ b + cfg.readyDelay := by
  obtain ⟨r, hr, -, rfl⟩ := h
  exact hb.findMinCmdCycle_le hpos (mem_queueOf hr)

/-! ### Refresh -/

theorem foldl_max_le_iff {α : Type*} (f : α → Nat) (l : List α) (m b : Nat) :
    l.foldl (fun a x => max a (f x)) m ≤ b ↔ m ≤ b ∧ ∀ x ∈ l, f x ≤ b := by
  induction l generalizing m with
  | nil => simp
  | cons x l ih =>
    rw [List.foldl_cons, ih, Nat.max_le, List.forall_mem_cons, and_assoc]

theorem minRefreshCycle_le_iff : c.minRefreshCycle cfg m ≤ b ↔ m ≤ b ∧
    ∀ rank bank, rank < cfg.ranksPerChannel → bank < cfg.banksPerRank →
      (c.banks rank bank).minPreCycle ≤ b ∧ (c.banks rank bank).lastCmdCycle ≤ b := by
  unfold minRefreshCycle
  rw [foldl_max_le_iff (fun i : Nat × Nat =>
    max (c.banks i.1 i.2).minPreCycle (c.banks i.1 i.2).lastCmdCycle)]
  refine and_congr_right' ⟨fun h rank bank hrank hbank => ?_, fun h i hi => ?_⟩
  · refine Nat.max_le.mp (h (rank, bank) ?_)
    simp [allBanks, hrank, hbank]
  · simp only [allBanks, List.mem_flatMap, List.mem_map, List.mem_range] at hi
    obtain ⟨rank, hrank, bank, hbank, rfl⟩ := hi
    exact Nat.max_le.mpr (h rank bank hrank hbank)

theorem refresh_same (m : Nat) : SameRequests c (c.refresh cfg m) := by
  refine ⟨rfl, rfl, rfl, rfl, rfl, fun rank bank => ?_, fun rank bank => ?_⟩
  all_goals
    unfold refresh
    dsimp only
    split <;> rfl

theorem Below.refresh (hb : c.Below b) (hv : cfg.Valid) (m : Nat) :
    (c.refresh cfg m).Below (max b m + cfg.timing.tRFC - cfg.timing.tRP) := by
  have hrp := hv.rp_le
  have hmin : c.minRefreshCycle cfg m ≤ max b m :=
    minRefreshCycle_le_iff.mpr ⟨le_max_right _ _, fun rank bank _ _ =>
      ⟨le_max_of_le_left (hb.banks rank bank).1, le_max_of_le_left (hb.banks rank bank).2.2⟩⟩
  constructor
  case banks =>
    intro rank bank
    have hold := hb.banks rank bank
    unfold Controller.refresh
    dsimp only
    split
    · dsimp only
      omega
    · omega
  case windows =>
    intro rank
    have hold := hb.windows rank
    show (c.rankActWindows rank).minActCycle ≤ _
    omega
  case arrivals =>
    intro r hr
    have hold := hb.arrivals r hr
    omega

theorem Inv.refresh (h : Inv cfg n none c) (hv : cfg.Valid) (m : Nat) :
    Inv cfg n none (c.refresh cfg m) := by
  obtain ⟨b, hb⟩ := h.bounded
  refine h.retime (refresh_same m) h.resp (fun rank bank => ?_) ⟨_, hb.refresh hv m⟩
  unfold Controller.refresh
  dsimp only
  split
  case isTrue hin =>
    have hle : c.minRefreshCycle cfg m ≤ c.minRefreshCycle cfg m := le_rfl
    have hcmd := (minRefreshCycle_le_iff.mp hle).2 rank bank hin.1 hin.2
    have hrp := hv.rp_le
    dsimp only
    omega
  case isFalse => exact h.pre rank bank

/-! ### Admission -/

theorem Inv.bank_nil (h : Inv cfg n none c) (hempty : c.Empty) (rank bank : Nat) :
    (c.banks rank bank).rdReqs = [] ∧ (c.banks rank bank).wrReqs = [] := by
  constructor
  · refine List.eq_nil_iff_forall_not_mem.mpr fun r hr => ?_
    exact List.not_mem_nil (hempty.1 ▸ ((h.rd rank bank r).mp hr).1)
  · refine List.eq_nil_iff_forall_not_mem.mpr fun r hr => ?_
    exact List.not_mem_nil (hempty.2 ▸ ((h.wr rank bank r).mp hr).1)

/-- A request that finds the queues empty is the first one of its bank. -/
theorem Queued.first_of_empty (q : Queued cfg n m req c c' req')
    (hbank : ∀ rank bank, (c.banks rank bank).rdReqs = [] ∧ (c.banks rank bank).wrReqs = []) :
    c'.first cfg req' = true := by
  unfold first bankQueue bankOf
  rw [q.write_eq, q.loc_eq]
  obtain ⟨rbefore, rafter, hrsplit, hrafter⟩ := q.rdReqs req.loc.rank req.loc.bank
  obtain ⟨wbefore, wafter, hwsplit, hwafter⟩ := q.wrReqs req.loc.rank req.loc.bank
  rw [(hbank _ _).1] at hrsplit
  rw [(hbank _ _).2] at hwsplit
  obtain ⟨rfl, rfl⟩ := List.append_eq_nil_iff.mp hrsplit.symm
  obtain ⟨rfl, rfl⟩ := List.append_eq_nil_iff.mp hwsplit.symm
  rw [hrafter, hwafter]
  cases cfg.deferredWrites && req.write <;> simp

theorem Queued.not_empty (q : Queued cfg n m req c c' req') : ¬c'.Empty := by
  intro hempty
  have hlengths := q.lengths
  rw [hempty.1, hempty.2] at hlengths
  simp at hlengths

theorem not_empty_of_full (hdepth : 0 < cfg.queueDepth) (hfull : c.full cfg = true) : ¬c.Empty := by
  intro hempty
  unfold full at hfull
  rw [hempty.1, hempty.2] at hfull
  simp at hfull
  omega

theorem lower_ne_none {next : Option Nat} {q t : Nat} :
    (if DDRMemory.isAfter next q then some t else next) ≠ none := by
  cases next with
  | none => exact Option.some_ne_none t
  | some old =>
    split
    · exact Option.some_ne_none t
    · exact Option.some_ne_none old

theorem le_lower {next : Option Nat} {q t : Nat} (ht : m ≤ t) (hle : ∀ t, next = some t → m ≤ t) :
    ∀ t', (if DDRMemory.isAfter next q then some t else next) = some t' → m ≤ t' := by
  intro t' ht'
  split at ht'
  · exact Option.some.inj ht' ▸ ht
  · exact hle t' ht'

/-- `tick` admits no request, or the first one that waits in the `overflowQueue`. -/
theorem Inv.takeOverflow_cases (h : Inv cfg n none c) {next : Option Nat}
    (hnext : next = none → c.Empty) (hle : ∀ t, next = some t → m ≤ t) :
    (c.overflowQueue = [] ∨ c.full cfg = true) ∧
      DDRMemory.takeOverflow cfg c next m = some (c, next) ∨
    ∃ c' next', DDRMemory.takeOverflow cfg c next m = some (c', next') ∧ next' ≠ none ∧
      (∀ t, next' = some t → m ≤ t) ∧ Inv cfg n none c' ∧ ¬c'.Empty ∧ c'.weight < c.weight := by
  unfold DDRMemory.takeOverflow
  dsimp only
  split
  case h_1 hover => exact .inl ⟨.inl hover, rfl⟩
  case h_2 req rest hover =>
    split
    case isTrue hfull => exact .inl ⟨.inr hfull, rfl⟩
    case isFalse =>
      refine .inr ?_
      have hhand : Inv cfg n (some req) { c with overflowQueue := rest } :=
        h.move (hover ▸ List.Perm.refl _)
      obtain ⟨c', req', hqueue, q⟩ := hhand.queue_spec m
      have hweight : c'.weight < c.weight := by
        have hlengths := q.lengths
        unfold weight
        rw [q.overflow, hover, List.length_cons]
        dsimp only at hlengths ⊢
        omega
      have hfirst : next = none → c'.first cfg req' = true := fun hnone =>
        q.first_of_empty (h.bank_nil (hnext hnone))
      rw [hqueue, Option.map_some]
      dsimp only
      by_cases hhead : c'.first cfg req' = true
      · rw [if_pos hhead]
        exact ⟨_, _, rfl, lower_ne_none, le_lower (le_max_left _ _) (le_lower
          ((le_max_left _ _).trans (le_max_left _ _)) hle), hhand.of_queued q, q.not_empty, hweight⟩
      · rw [if_neg hhead]
        exact ⟨_, _, rfl, fun hnone => hhead (hfirst hnone), hle, hhand.of_queued q, q.not_empty,
          hweight⟩

/-! ### Ticks -/

/-- What `tick` does with the requests, and the memory cycle of the next tick. -/
inductive Ticked (cfg : Config) (n cur : Nat) (c : Controller) : Controller → Option Nat → Prop
  | wait {t : Nat} (hqueues : ¬c.Empty) (hlater : cur < t)
      (hwhy : cur + cfg.timing.tCL < c.minRespCycle ∧ t = c.minRespCycle - cfg.timing.tCL ∨
        c.minRespCycle ≤ cur + cfg.timing.tCL ∧ ¬c.Ready cfg cur ∧ c.FirstReady cfg t) :
      Ticked cfg n cur c c (some t)
  | work {c' : Controller} {next : Option Nat} (hinv : Inv cfg n none c')
      (hless : c'.weight < c.weight) (hnext : next = none ↔ c'.Empty)
      (hover : c'.overflowQueue ≠ [] → ¬c'.Empty) (hle : ∀ t, next = some t → cur ≤ t) :
      Ticked cfg n cur c c' next

theorem Ticked.inv {next : Option Nat} (q : Ticked cfg n cur c c' next) (h : Inv cfg n none c) :
    Inv cfg n none c' ∧ (next = none ↔ c'.Empty) ∧ (c'.overflowQueue ≠ [] → ¬c'.Empty) ∧
      ∀ t, next = some t → cur ≤ t := by
  cases q with
  | wait hqueues hlater =>
    refine ⟨h, iff_of_false (Option.some_ne_none _) hqueues, fun _ => hqueues, fun t ht => ?_⟩
    exact Option.some.inj ht ▸ hlater.le
  | work hinv _ hnext hover hle => exact ⟨hinv, hnext, hover, hle⟩

theorem Inv.tick_spec (h : Inv cfg n none c) (hv : cfg.Valid) (hdepth : 0 < cfg.queueDepth)
    (hsys : cfg.sysToMemCycle sys ≤ cur) (hqueues : ¬c.Empty) :
    ∃ c1 next1 c2 next2, c.trySchedule cfg cur sys = some (c1, next1) ∧
      (∀ t, next1 = some t → cur ≤ t) ∧
      DDRMemory.takeOverflow cfg c1 next1 cur = some (c2, next2) ∧
      Ticked cfg n cur c c2 next2 := by
  obtain ⟨hempty, -⟩ | ⟨-, ⟨t, htry, hlater, hwhy⟩ | ⟨c1, hserved, htry⟩⟩ :=
    h.trySchedule_cases hv hsys
  · exact absurd hempty hqueues
  · have hle : ∀ t', some t = some t' → cur ≤ t' := fun t' ht' => by
      cases ht'
      exact hlater.le
    obtain ⟨-, htake⟩ | ⟨c2, next2, htake, hsome, hle2, hinv, hnot, hweight⟩ :=
      h.takeOverflow_cases (fun hnone => absurd hnone (Option.some_ne_none t)) hle
    · exact ⟨_, _, _, _, htry, hle, htake, .wait hqueues hlater hwhy⟩
    · exact ⟨_, _, _, _, htry, hle, htake,
        .work hinv hweight (iff_of_false hsome hnot) (fun _ => hnot) hle2⟩
  · have hweight : c1.weight < c.weight := by
      have htotal := hserved.total
      unfold weight
      rw [hserved.overflow]
      omega
    generalize hnext1 : (if c1.rdQueue = [] ∧ c1.wrQueue = [] then none
      else some (c1.minRespCycle - cfg.timing.tCL)) = next1 at htry
    have hnone : next1 = none ↔ c1.Empty := by
      rw [← hnext1]
      split
      case isTrue hempty => exact iff_of_true rfl hempty
      case isFalse hnot => exact iff_of_false (Option.some_ne_none _) hnot
    have hle : ∀ t, next1 = some t → cur ≤ t := by
      intro t ht
      have hresp := hserved.resp
      rw [← hnext1] at ht
      split at ht
      · cases ht
      · cases ht
        omega
    obtain ⟨hover, htake⟩ | ⟨c2, next2, htake, hsome, hle2, hinv, hnot, hweight2⟩ :=
      hserved.inv.takeOverflow_cases hnone.mp hle
    · refine ⟨_, _, _, _, htry, hle, htake, .work hserved.inv hweight hnone (fun hne => ?_) hle⟩
      exact not_empty_of_full hdepth (hover.resolve_left hne)
    · exact ⟨_, _, _, _, htry, hle, htake,
        .work hinv (hweight2.trans hweight) (iff_of_false hsome hnot) (fun _ => hnot) hle2⟩

end Controller

end Doppelganger.Dram
