import Doppelganger.Detailed.Channel
import Doppelganger.Lib.Run
import Doppelganger.Lib.Slots

/-! The data bus of a channel.  The slot that `CalcInterIssueCycle` finds is free, and it is the one
that is recorded unless the penalty of a rank that is powered down moves it afterwards. -/

namespace Doppelganger.Detailed

open Lib Lib.Interval

/-! ### The search for a slot -/

variable {gap len t : Nat} {log log' : List Slot} {slot : Slot}

/-- A slot that ends before all of the log is taken as it is. -/
theorem findSlot_of_before {tSlot : Nat} (h : ∀ e ∈ log, t + tSlot < e.1) :
    findSlot tSlot gap log t = t := by
  cases log with
  | nil => rfl
  | cons e rest =>
    have he := h e (by simp)
    rw [findSlot, if_neg (by omega), if_pos he]

theorem le_findSlot (t : Nat) : t ≤ findSlot (len + gap) gap log t := by
  induction log generalizing t with
  | nil => exact le_rfl
  | cons e rest ih =>
    rw [findSlot]
    split
    case isTrue hconflict => exact le_trans (by omega) (ih _)
    case isFalse =>
      split
      case isTrue => exact le_rfl
      case isFalse => exact ih t

/-- What the search finds is free. -/
theorem findSlot_free (hbefore : log.Pairwise (Before gap)) (hlong : ∀ e ∈ log, e.1 + len ≤ e.2)
    (t : Nat) : ∀ e ∈ log,
      Apart gap (findSlot (len + gap) gap log t, findSlot (len + gap) gap log t + len) e := by
  induction log generalizing t with
  | nil => simp
  | cons e rest ih =>
    obtain ⟨hfirst, hrest⟩ := List.pairwise_cons.mp hbefore
    have hlen := hlong e (by simp)
    have ih := ih hrest fun e' he' => hlong e' (by simp [he'])
    rw [findSlot]
    split
    case isTrue =>
      intro e' he'
      rcases List.mem_cons.mp he' with rfl | he'
      · exact .inr (le_findSlot _)
      · exact ih _ e' he'
    case isFalse hconflict =>
      split
      case isTrue hstop =>
        intro e' he'
        have hstart : e.1 ≤ e'.1 := by
          rcases List.mem_cons.mp he' with rfl | he'
          · exact le_rfl
          · have : e.2 + gap ≤ e'.1 := hfirst e' he'
            omega
        refine .inl ?_
        change t + len + gap ≤ e'.1
        omega
      case isFalse hstop =>
        intro e' he'
        rcases List.mem_cons.mp he' with rfl | he'
        · by_cases hpast : e'.2 + gap ≤ t
          · exact .inr (le_trans hpast (le_findSlot t))
          · -- the slot ends just where `e'` starts, and so it is before all of the rest
            have hsame : findSlot (len + gap) gap rest t = t :=
              findSlot_of_before fun e'' he'' => by
                have : e'.2 + gap ≤ e''.1 := hfirst e'' he''
                omega
            rw [hsame]
            refine .inl ?_
            change t + len + gap ≤ e'.1
            omega
        · exact ih t e' he'

/-! ### The access log -/

instance : Std.Total slotLe := ⟨fun a b => by unfold slotLe; omega⟩

instance : IsTrans Slot slotLe := ⟨fun a b c hab hbc => by unfold slotLe at *; omega⟩

/-- The slots of a log are in order, and each one is as long as the data of a request. -/
structure BusLog (p : MemParam) (log : List Slot) : Prop where
  sorted : log.Pairwise slotLe
  long : ∀ e ∈ log, e.1 + p.tTrans ≤ e.2

namespace BusLog

variable {p : MemParam}

theorem nil : BusLog p [] := ⟨.nil, by simp⟩

theorem le (h : BusLog p log) : ∀ e ∈ log, e.1 ≤ e.2 := fun e he => by
  have := h.long e he
  omega

theorem before (h : BusLog p log) (hapart : log.Pairwise (Apart gap)) :
    log.Pairwise (Before gap) :=
  pairwise_before h.le h.sorted hapart

theorem forget {oldest first : Slot} {rest : List Slot}
    (h : BusLog p (first :: oldest :: rest)) : BusLog p ((0, oldest.2) :: rest) := by
  obtain ⟨-, hsorted⟩ := List.pairwise_cons.mp h.sorted
  obtain ⟨holdest, hrest⟩ := List.pairwise_cons.mp hsorted
  constructor
  case sorted =>
    refine List.pairwise_cons.mpr ⟨fun e he => ?_, hrest⟩
    have := holdest e he
    unfold slotLe at *
    omega
  case long =>
    intro e he
    rcases List.mem_cons.mp he with rfl | he
    · have := h.long oldest (by simp)
      dsimp only
      omega
    · exact h.long e (by simp [he])

/-- The log with a slot put in its place. -/
theorem insert (h : BusLog p log) (hslot : slot.1 + p.tTrans ≤ slot.2) :
    BusLog p ((log ++ [slot]).insertionSort slotLe) := by
  refine ⟨List.pairwise_insertionSort _ _, fun e he => ?_⟩
  rcases List.mem_append.mp ((List.mem_insertionSort _).mp he) with he | he
  · exact h.long e he
  · obtain rfl := List.mem_singleton.mp he
    exact hslot

end BusLog

theorem insert_apart (hapart : log.Pairwise (Apart gap)) (hfree : ∀ e ∈ log, Apart gap slot e) :
    ((log ++ [slot]).insertionSort slotLe).Pairwise (Apart gap) := by
  have hperm : ((log ++ [slot]).insertionSort slotLe).Perm (slot :: log) :=
    (List.perm_insertionSort _ _).trans (List.perm_append_singleton slot log)
  exact hperm.symm.pairwise (List.pairwise_cons.mpr ⟨hfree, hapart⟩) Apart.symm

namespace MemChannel

variable {p : MemParam}

/-- A log that a slot is added to stays in order. -/
theorem updateDataBusCycle_log (h : updateDataBusCycle p slot log = some log')
    (hlog : BusLog p log) (hslot : slot.1 + p.tTrans ≤ slot.2) : BusLog p log' := by
  have hinsert := hlog.insert hslot
  unfold updateDataBusCycle at h
  dsimp only at h
  generalize (log ++ [slot]).insertionSort slotLe = inserted at h hinsert
  split at h
  case isTrue =>
    match inserted, hinsert, h with
    | _ :: _ :: _, hinsert, rfl => exact hinsert.forget
  case isFalse =>
    cases h
    exact hinsert

/-- A log that a free slot is added to keeps its slots apart, and holds that slot and whatever it
held. -/
theorem updateDataBusCycle_apart (h : updateDataBusCycle p slot log = some log')
    (hlog : BusLog p log) (hslot : slot.1 + p.tTrans ≤ slot.2)
    (hapart : log.Pairwise (Apart gap)) (hfree : ∀ e ∈ log, Apart gap slot e) :
    log'.Pairwise (Apart gap) ∧ Covered log' slot ∧ ∀ a, Covered log a → Covered log' a := by
  have hinsert := hlog.insert hslot
  have hbefore := hinsert.before (insert_apart hapart hfree)
  have hmem : ∀ e, e ∈ (log ++ [slot]).insertionSort slotLe ↔ e ∈ log ∨ e = slot := by
    simp [List.mem_insertionSort]
  unfold updateDataBusCycle at h
  dsimp only at h
  generalize (log ++ [slot]).insertionSort slotLe = inserted at h hinsert hbefore hmem
  have hslotIn : Covered inserted slot := ⟨slot, (hmem slot).mpr (.inr rfl), .refl slot⟩
  have hlogIn : ∀ a, Covered log a → Covered inserted a := fun a ⟨b, hb, hwithin⟩ =>
    ⟨b, (hmem b).mpr (.inl hb), hwithin⟩
  split at h
  case isTrue =>
    match inserted, hinsert, hbefore, hslotIn, hlogIn, h with
    | _ :: oldest :: _, hinsert, hbefore, hslotIn, hlogIn, rfl =>
      have hlen := hinsert.le oldest (by simp)
      exact ⟨(forget_before hbefore).imp Or.inl, forget_covered hbefore hlen hslotIn,
        fun a ha => forget_covered hbefore hlen (hlogIn a ha)⟩
  case isFalse =>
    cases h
    exact ⟨hbefore.imp Or.inl, hslotIn, hlogIn⟩

/-! ### A request -/

/-- The slot that `CalcInterIssueCycle` finds for a request. -/
def foundSlot (p : MemParam) (c : MemChannel) (lineAddr : UInt64) (arrivalCycle : Nat)
    (type : MemAccessType) : Option Slot :=
  (p.addressMap c.myId lineAddr).bind fun place =>
    ((c.ranks place.rank.toNat).prepare p place type arrivalCycle).map fun (_, rdwrStart) =>
      let busStart := c.calcInterIssueCycle p type rdwrStart + p.getDataLatency type
      (busStart, busStart + p.getDataSlot type)

/-- The slot that `LatencySimulate` records for a request with this latency. -/
def recordedSlot (p : MemParam) (arrivalCycle : Nat) (type : MemAccessType) (latency : Nat) :
    Slot :=
  let busEndCycle := arrivalCycle + (latency + (p.tTrans - p.tTransCrit))
  (busEndCycle - p.getDataSlot type, busEndCycle)

/-- What a request has to wait for its rank to power up. -/
def powerUpDelay (p : MemParam) (c : MemChannel) (lineAddr : UInt64) (arrivalCycle : Nat) : Nat :=
  (p.addressMap c.myId lineAddr).elim 0 fun place =>
    (c.ranks place.rank.toNat).getPowerDownPenalty p arrivalCycle

variable {c c' : MemChannel} {lineAddr : UInt64} {arrivalCycle latency : Nat}
  {type : MemAccessType}

/-- A request records the slot that was found, later by the cycles that its rank takes to power
up. -/
theorem latencySimulate_slots
    (h : c.latencySimulate p lineAddr arrivalCycle type = some (c', latency)) :
    ∃ start,
      let busStart := c.slotStart p type start
      let delay := c.powerUpDelay p lineAddr arrivalCycle
      c.foundSlot p lineAddr arrivalCycle type = some (busStart, busStart + p.tTrans) ∧
      recordedSlot p arrivalCycle type latency =
        (busStart + delay, busStart + delay + p.tTrans) ∧
      updateDataBusCycle p (recordedSlot p arrivalCycle type latency) c.accessLog =
        some c'.accessLog := by
  obtain ⟨place, hplace, h⟩ := Option.bind_eq_some_iff.mp h
  obtain ⟨⟨r, start⟩, hprepare, h⟩ := Option.bind_eq_some_iff.mp h
  obtain ⟨harrival, h⟩ := Option.ite_none_right_eq_some.mp h
  obtain ⟨r', -, h⟩ := Option.bind_eq_some_iff.mp h
  obtain ⟨accessLog, hlog, hpair⟩ := Option.map_eq_some_iff.mp h
  obtain ⟨rfl, hlatency⟩ := Prod.mk.inj hpair
  have hstart : p.getDataLatency type ≤ c.slotStart p type start :=
    le_trans (Nat.le_add_left _ _) (le_findSlot _)
  have hdelay : c.powerUpDelay p lineAddr arrivalCycle =
      (c.ranks place.rank.toNat).getPowerDownPenalty p arrivalCycle := by
    rw [powerUpDelay, hplace]
    rfl
  have hcrit : p.tTransCrit ≤ p.tTrans := Nat.div_le_self _ _
  refine ⟨start, ?_, ?_, ?_⟩
  · rw [foundSlot, hplace, Option.bind_some, hprepare, Option.map_some]
    change some (c.slotStart p type start - _ + _, c.slotStart p type start - _ + _ + p.tTrans) = _
    rw [Nat.sub_add_cancel hstart]
  · rw [recordedSlot, hdelay, ← hlatency]
    unfold calcInterIssueCycle at harrival ⊢
    unfold MemParam.getDataDelay MemParam.getDataSlot
    refine Prod.ext ?_ ?_
    all_goals
      dsimp only
      omega
  · rw [recordedSlot, ← hlatency]
    exact hlog

end MemChannel

/-! ### Runs -/

/-- A channel, with the slots that were found and that were recorded, the latest first. -/
structure Bus where
  chnl : MemChannel
  found : List Slot
  recorded : List Slot

namespace Bus

inductive Op
  | access (lineAddr : UInt64) (arrivalCycle : Nat) (type : MemAccessType)
  | periodicUpdatePower (phaseCycle : Nat)

def init (myId : UInt32) : Bus := ⟨.init myId, [], []⟩

def step (p : MemParam) : Op → Bus → Option Bus
  | .access lineAddr arrivalCycle type, s =>
    (s.chnl.foundSlot p lineAddr arrivalCycle type).bind fun slot =>
      (s.chnl.latencySimulate p lineAddr arrivalCycle type).map fun (chnl, latency) =>
        { chnl
          found := slot :: s.found
          recorded := MemChannel.recordedSlot p arrivalCycle type latency :: s.recorded }
  | .periodicUpdatePower phaseCycle, s =>
    (s.chnl.periodicUpdatePower p phaseCycle).map fun chnl => { s with chnl }

/-- The slots of the access log, and all those that were ever recorded, are apart, and each request
is recorded in the slot that was found for it. -/
structure SlotsFree (p : MemParam) (s : Bus) : Prop where
  log : s.chnl.accessLog.Pairwise (Apart p.tRTRS)
  apart : s.recorded.Pairwise (Apart p.tRTRS)
  found : s.recorded = s.found

/-- The rank of a request is not powered down, or takes no time to power up. -/
def PoweredUp (p : MemParam) : Op → Bus → Prop
  | .access lineAddr arrivalCycle _, s => s.chnl.powerUpDelay p lineAddr arrivalCycle = 0
  | .periodicUpdatePower _, _ => True

instance (p : MemParam) : ∀ (op : Op) (s : Bus), Decidable (PoweredUp p op s)
  | .access _ _ _, _ => inferInstanceAs (Decidable (_ = 0))
  | .periodicUpdatePower _, _ => isTrue trivial

/-- The log is in order, and stands for all that was recorded while its slots are apart. -/
structure Inv (p : MemParam) (s : Bus) : Prop where
  log : BusLog p s.chnl.accessLog
  covered : SlotsFree p s → ∀ slot ∈ s.recorded, Covered s.chnl.accessLog slot

variable {p : MemParam} {s s' : Bus}

theorem init_inv (myId : UInt32) : Inv p (init myId) := ⟨.nil, by simp [init]⟩

theorem init_slotsFree (myId : UInt32) : SlotsFree p (init myId) := ⟨.nil, .nil, rfl⟩

theorem periodicUpdate_accessLog {c c' : MemChannel} {phaseCycle rank : Nat}
    (h : c.periodicUpdate p phaseCycle rank = some c') : c'.accessLog = c.accessLog := by
  unfold MemChannel.periodicUpdate at h
  dsimp only at h
  split at h
  · obtain ⟨refreshNum, -, h⟩ := Option.bind_eq_some_iff.mp h
    obtain ⟨r, -, rfl⟩ := Option.map_eq_some_iff.mp h
    rfl
  · cases h
    rfl

theorem periodicUpdatePower_accessLog {c c' : MemChannel} {phaseCycle : Nat}
    (h : c.periodicUpdatePower p phaseCycle = some c') : c'.accessLog = c.accessLog := by
  unfold MemChannel.periodicUpdatePower at h
  generalize List.range _ = ranks at h
  induction ranks generalizing c with
  | nil =>
    cases h
    rfl
  | cons rank ranks ih =>
    obtain ⟨c1, h1, h⟩ := Option.bind_eq_some_iff.mp h
    exact (ih h).trans (periodicUpdate_accessLog h1)

/-- A request to a rank that is powered up is recorded in a free slot. -/
theorem access_spec {lineAddr : UInt64} {arrivalCycle : Nat} {type : MemAccessType}
    (h : step p (.access lineAddr arrivalCycle type) s = some s') (hInv : Inv p s)
    (hfree : SlotsFree p s) :
    Inv p s' ∧ (SlotsFree p s' ↔ s.chnl.powerUpDelay p lineAddr arrivalCycle = 0) := by
  obtain ⟨slot, hslot, h⟩ := Option.bind_eq_some_iff.mp h
  obtain ⟨⟨chnl, latency⟩, hsimulate, rfl⟩ := Option.map_eq_some_iff.mp h
  obtain ⟨start, hfound, hrecorded, hlog⟩ := MemChannel.latencySimulate_slots hsimulate
  obtain rfl := Option.some.inj (hslot.symm.trans hfound)
  dsimp only
  generalize MemChannel.recordedSlot p arrivalCycle type latency = recorded at hrecorded hlog ⊢
  have hlong : recorded.1 + p.tTrans ≤ recorded.2 := by
    subst hrecorded
    exact le_rfl
  have hlog' := MemChannel.updateDataBusCycle_log hlog hInv.log hlong
  by_cases hdelay : s.chnl.powerUpDelay p lineAddr arrivalCycle = 0
  case pos =>
    rw [hdelay] at hrecorded
    have hnew : ∀ e ∈ s.chnl.accessLog, Apart p.tRTRS recorded e := by
      subst hrecorded
      exact findSlot_free (hInv.log.before hfree.log) hInv.log.long _
    obtain ⟨hapart, hcovered, hkept⟩ :=
      MemChannel.updateDataBusCycle_apart hlog hInv.log hlong hfree.log hnew
    have hall := hInv.covered hfree
    refine ⟨⟨hlog', fun _ e he => ?_⟩, iff_of_true ⟨hapart, ?_, ?_⟩ hdelay⟩
    · rcases List.mem_cons.mp he with rfl | he
      · exact hcovered
      · exact hkept e (hall e he)
    · exact List.pairwise_cons.mpr ⟨fun e he => (hall e he).apart hnew, hfree.apart⟩
    · exact congrArg₂ List.cons hrecorded hfree.found
  case neg =>
    have hmoved : recorded.1 ≠ s.chnl.slotStart p type start := by
      rw [hrecorded]
      dsimp only
      omega
    have hnot {c : MemChannel} : ¬ SlotsFree p
        ⟨c, (s.chnl.slotStart p type start, s.chnl.slotStart p type start + p.tTrans) :: s.found,
          recorded :: s.recorded⟩ :=
      fun hfree' => hmoved (congrArg Prod.fst (List.cons.inj hfree'.found).1)
    exact ⟨⟨hlog', fun hfree' => absurd hfree' hnot⟩, iff_of_false hnot hdelay⟩

/-- The slots on the data bus stay apart, and are those that were found, as long as the requests go
to ranks that are powered up. -/
theorem slots_free_iff (p : MemParam) (myId : UInt32) (ops : List Op)
    (hrun : (run (step p) ops (init myId)).isSome) :
    Always (step p) (SlotsFree p) ops (init myId) ↔
      Along (step p) (PoweredUp p) ops (init myId) := by
  refine always_iff_along (fun op s hInv hfree hsome => .inr ?_) ops (init_inv (p := p) myId)
    (init_slotsFree myId) ((run_isSome_iff (fun _ _ => Iff.rfl) ops _).mp hrun)
  obtain ⟨s', hs'⟩ := Option.isSome_iff_exists.mp hsome
  refine ⟨s', hs', ?_⟩
  cases op with
  | access lineAddr arrivalCycle type => exact access_spec hs' hInv hfree
  | periodicUpdatePower phaseCycle =>
    obtain ⟨chnl, hpower, rfl⟩ := Option.map_eq_some_iff.mp hs'
    have hlog := periodicUpdatePower_accessLog hpower
    have hInv' : Inv p { s with chnl } :=
      ⟨hlog ▸ hInv.log, fun _ slot hslot => hlog ▸ hInv.covered hfree slot hslot⟩
    exact ⟨hInv', iff_of_true ⟨hlog ▸ hfree.log, hfree.apart, hfree.found⟩ trivial⟩

theorem slots_free_example :
    (run (step .defaults) [.access 0 10 .READ, .periodicUpdatePower 20, .access 4 21 .WRITE]
      (init 0)).isSome ∧
    Always (step .defaults) (SlotsFree .defaults)
      [.access 0 10 .READ, .periodicUpdatePower 20, .access 4 21 .WRITE] (init 0) :=
  ⟨by decide, (slots_free_iff .defaults 0
    [.access 0 10 .READ, .periodicUpdatePower 20, .access 4 21 .WRITE] (by decide)).mpr
      (by decide)⟩

/-- One channel with two ranks that take ten cycles to power up. -/
def twoRanks : MemParam := { MemParam.defaults with channelCount := 1, rankCount := 2, tXP := 10 }

/-- Each of the first requests of two ranks waits ten cycles, and their data overlaps. -/
theorem slots_not_free :
    (run (step twoRanks) [.access 0 100 .READ, .access 1 101 .READ] (init 0)).map
      (fun s => (s.found, s.chnl.accessLog)) =
        some ([(103, 107), (102, 106)], [(112, 116), (113, 117)]) ∧
    ¬ Always (step twoRanks) (SlotsFree twoRanks) [.access 0 100 .READ, .access 1 101 .READ]
      (init 0) := by
  have hrun : (run (step twoRanks) [.access 0 100 .READ, .access 1 101 .READ] (init 0)).map
      (fun s => (s.found, s.chnl.accessLog)) =
        some ([(103, 107), (102, 106)], [(112, 116), (113, 117)]) := by decide
  refine ⟨hrun, fun hall => ?_⟩
  obtain ⟨s, hs, hlog⟩ := Option.map_eq_some_iff.mp hrun
  have hapart := (hall.last hs).log
  rw [(Prod.mk.inj hlog).2] at hapart
  exact absurd hapart (by decide)

end Bus

end Doppelganger.Detailed
