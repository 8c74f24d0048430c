import Doppelganger.Dram.SchedEvents

/-! The conversions of `ddr_mem.h` in 64 bits, where products may wrap.  As long as none does, the
system cycle at which an event is enqueued is in the memory cycle that it is for. -/

namespace Doppelganger.Dram

/-- The frequencies of `DDRMemory`. -/
structure Clocks where
  sysFreqKHz : UInt64
  memFreqKHz : UInt64
deriving Repr

namespace Clocks

variable (k : Clocks)

def sysToMemCycle (sysCycle : UInt64) : UInt64 := sysCycle * k.memFreqKHz / k.sysFreqKHz + 1

def matchingMemToSysCycle (memCycle : UInt64) : UInt64 :=
  (2 * memCycle - 1) * k.sysFreqKHz / k.memFreqKHz / 2

variable {k} {m s : UInt64}

/-- The frequencies of a configuration. -/
structure Of (k : Clocks) (cfg : Config) : Prop where
  sys : cfg.sysFreqKHz = k.sysFreqKHz.toNat
  mem : cfg.timing.memFreqKHz = k.memFreqKHz.toNat

theorem freq_le (hfreq : k.memFreqKHz < k.sysFreqKHz / 2) :
    2 * k.memFreqKHz.toNat ≤ k.sysFreqKHz.toNat := by
  have hlt := UInt64.lt_iff_toNat_lt.mp hfreq
  rw [UInt64.toNat_div] at hlt
  change k.memFreqKHz.toNat < k.sysFreqKHz.toNat / 2 at hlt
  omega

theorem toNat_sysToMemCycle (hpos : 1 < k.sysFreqKHz.toNat)
    (hwrap : s.toNat * k.memFreqKHz.toNat < 2 ^ 64) :
    (k.sysToMemCycle s).toNat = s.toNat * k.memFreqKHz.toNat / k.sysFreqKHz.toNat + 1 := by
  have hlt : s.toNat * k.memFreqKHz.toNat / k.sysFreqKHz.toNat + 1 < 2 ^ 64 := by
    have hhalf : s.toNat * k.memFreqKHz.toNat / k.sysFreqKHz.toNat ≤
        s.toNat * k.memFreqKHz.toNat / 2 := Nat.div_le_div_left hpos (by omega)
    omega
  unfold sysToMemCycle
  rw [UInt64.toNat_add, UInt64.toNat_div, UInt64.toNat_mul, Nat.mod_eq_of_lt hwrap]
  exact Nat.mod_eq_of_lt hlt

theorem toNat_matching (hm : 1 ≤ m) (hpos : 1 < k.sysFreqKHz.toNat)
    (hwrap : (2 * m.toNat - 1) * k.sysFreqKHz.toNat < 2 ^ 64) :
    (k.matchingMemToSysCycle m).toNat =
      (2 * m.toNat - 1) * k.sysFreqKHz.toNat / k.memFreqKHz.toNat / 2 := by
  have hm' : 1 ≤ m.toNat := UInt64.le_iff_toNat_le.mp hm
  have hdouble : 2 * m.toNat < 2 ^ 64 := by
    have := Nat.mul_le_mul_left (2 * m.toNat - 1) hpos
    omega
  have htwo : (2 * m).toNat = 2 * m.toNat := by
    rw [UInt64.toNat_mul]
    exact Nat.mod_eq_of_lt hdouble
  have hodd : (2 * m - 1).toNat = 2 * m.toNat - 1 := by
    rw [UInt64.toNat_sub_of_le, htwo]
    · rfl
    · rw [UInt64.le_iff_toNat_le, htwo]
      show 1 ≤ 2 * m.toNat
      omega
  unfold matchingMemToSysCycle
  rw [UInt64.toNat_div, UInt64.toNat_div, UInt64.toNat_mul, hodd, Nat.mod_eq_of_lt hwrap]
  rfl

/-- The product for the matching cycle does not wrap when the one for the memory cycle does not. -/
theorem matching_no_wrap (hm : 1 ≤ m) (hpos : 1 < k.sysFreqKHz.toNat)
    (hwrap : (2 * m.toNat - 1) * k.sysFreqKHz.toNat < 2 ^ 64) :
    (k.matchingMemToSysCycle m).toNat * k.memFreqKHz.toNat < 2 ^ 64 := by
  rw [toNat_matching hm hpos hwrap, Nat.div_right_comm]
  calc (2 * m.toNat - 1) * k.sysFreqKHz.toNat / 2 / k.memFreqKHz.toNat * k.memFreqKHz.toNat
    _ ≤ (2 * m.toNat - 1) * k.sysFreqKHz.toNat / 2 := Nat.div_mul_le_self _ _
    _ ≤ (2 * m.toNat - 1) * k.sysFreqKHz.toNat := Nat.div_le_self _ _
    _ < 2 ^ 64 := hwrap

theorem sysToMemCycle_matching (hmem : 0 < k.memFreqKHz)
    (hfreq : k.memFreqKHz < k.sysFreqKHz / 2) (hm : 1 ≤ m)
    (hwrap : (2 * m.toNat - 1) * k.sysFreqKHz.toNat < 2 ^ 64) :
    k.sysToMemCycle (k.matchingMemToSysCycle m) = m := by
  have hmem' : 0 < k.memFreqKHz.toNat := UInt64.lt_iff_toNat_lt.mp hmem
  have hle := freq_le hfreq
  have hm' : 1 ≤ m.toNat := UInt64.le_iff_toNat_le.mp hm
  have hpos : 1 < k.sysFreqKHz.toNat := by omega
  have hround := matching_round_trip hmem' hle (Nat.sub_add_cancel hm').symm
  apply UInt64.toNat_inj.mp
  rw [toNat_sysToMemCycle hpos (matching_no_wrap hm hpos hwrap), toNat_matching hm hpos hwrap,
    hround, Nat.sub_add_cancel hm']

theorem sysToMemCycle_max (hmem : 0 < k.memFreqKHz) (hfreq : k.memFreqKHz < k.sysFreqKHz / 2)
    (hm : 1 ≤ m) (hwrap : (2 * m.toNat - 1) * k.sysFreqKHz.toNat < 2 ^ 64)
    (hs : s.toNat * k.memFreqKHz.toNat < 2 ^ 64) (hle : k.sysToMemCycle s ≤ m) :
    k.sysToMemCycle (max (k.matchingMemToSysCycle m) s) = m := by
  have hmem' : 0 < k.memFreqKHz.toNat := UInt64.lt_iff_toNat_lt.mp hmem
  have hfreq' := freq_le hfreq
  have hpos : 1 < k.sysFreqKHz.toNat := by omega
  have hdef : max (k.matchingMemToSysCycle m) s =
      if k.matchingMemToSysCycle m ≤ s then s else k.matchingMemToSysCycle m := rfl
  rw [hdef]
  split
  case isTrue hmax =>
    have hle' := UInt64.le_iff_toNat_le.mp hle
    rw [toNat_sysToMemCycle hpos hs] at hle'
    have hround := matching_max_round_trip hmem' hfreq' hle'
    have hmax' := UInt64.le_iff_toNat_le.mp hmax
    rw [toNat_matching hm hpos hwrap] at hmax'
    rw [Nat.max_eq_right hmax'] at hround
    apply UInt64.toNat_inj.mp
    rw [toNat_sysToMemCycle hpos hs, hround]
  case isFalse => exact sysToMemCycle_matching hmem hfreq hm hwrap

end Clocks

/-! ### Ticks -/

section

variable {cfg : Config} {s s' : DDRMemory} {k : Clocks}

theorem Clocks.Of.max_round_trip (h : k.Of cfg) (hmem : 0 < k.memFreqKHz)
    (hfreq : k.memFreqKHz < k.sysFreqKHz / 2) {sys m : Nat} (hle : cfg.sysToMemCycle sys ≤ m) :
    cfg.sysToMemCycle (max (cfg.matchingMemToSysCycle m) sys) = m := by
  have hle' := freq_le hfreq
  rw [← h.sys, ← h.mem] at hle'
  have hpos : 0 < cfg.timing.memFreqKHz := h.mem ▸ UInt64.lt_iff_toNat_lt.mp hmem
  exact matching_max_round_trip hpos hle' hle

theorem le_ite {p : Prop} [Decidable p] {a b : Option Nat} {m : Nat} (ha : ∀ t ∈ a, m ≤ t)
    (hb : ∀ t ∈ b, m ≤ t) : ∀ t ∈ if p then a else b, m ≤ t := by
  split
  · exact ha
  · exact hb

/-- `takeOverflow` leaves the next cycle not before the current one. -/
theorem takeOverflow_le {c c' : Controller} {next next' : Option Nat} {m : Nat}
    (h : DDRMemory.takeOverflow cfg c next m = some (c', next')) (hle : ∀ t ∈ next, m ≤ t) :
    ∀ t ∈ next', m ≤ t := by
  unfold DDRMemory.takeOverflow at h
  dsimp only at h
  split at h
  case h_1 =>
    cases h
    exact hle
  case h_2 ovfReq rest hover =>
    split at h
    case isTrue =>
      cases h
      exact hle
    case isFalse =>
      obtain ⟨⟨c1, req⟩, -, heq⟩ := Option.map_eq_some_iff.mp h
      dsimp only at heq
      split at heq
      case isTrue =>
        obtain ⟨-, rfl⟩ := Prod.mk.inj heq
        have hlow : m ≤ max m (c1.minRespCycle - cfg.timing.tCL - cfg.timing.tBL) :=
          le_max_left _ _
        have hready := hlow.trans (le_max_left _ (c1.findMinCmdCycle cfg req))
        refine le_ite (by simp) (le_ite (fun t ht => ?_) hle)
        exact Option.some.inj ht ▸ hready
      case isFalse => exact (Prod.mk.inj heq).2 ▸ hle

/-- The cycle that `tick` returns is in the memory cycle that the next tick asks for. -/
theorem Clocks.Of.tick_next (h : k.Of cfg) (hmem : 0 < k.memFreqKHz)
    (hfreq : k.memFreqKHz < k.sysFreqKHz / 2) {sys next : Nat}
    (htick : s.tick cfg sys = some (s', next)) :
    s'.nextSchedCycle = none ∧ next = 0 ∨ s'.nextSchedCycle = some (cfg.sysToMemCycle next) := by
  unfold DDRMemory.tick at htick
  obtain ⟨-, htick⟩ := Option.ite_none_right_eq_some.mp htick
  obtain ⟨⟨c1, min1⟩, htry, htick⟩ := Option.bind_eq_some_iff.mp htick
  obtain ⟨hle, htick⟩ := Option.ite_none_right_eq_some.mp htick
  obtain ⟨⟨c2, min2⟩, htake, heq⟩ := Option.map_eq_some_iff.mp htick
  have hle1 : ∀ t ∈ min1, cfg.sysToMemCycle sys ≤ t := by
    intro t ht
    rw [Option.mem_def.mp ht] at hle
    simpa using hle
  have hle2 := takeOverflow_le htake hle1
  cases min2 with
  | none =>
    obtain ⟨rfl, rfl⟩ := Prod.mk.inj heq
    exact .inl ⟨rfl, rfl⟩
  | some t =>
    obtain ⟨rfl, rfl⟩ := Prod.mk.inj heq
    exact .inr (congrArg some (h.max_round_trip hmem hfreq (hle2 t rfl)).symm)

/-- `wakeAt` enqueues an event in the memory cycle that the next tick asks for, or nothing. -/
theorem Clocks.Of.wakeAt_next (h : k.Of cfg) (hmem : 0 < k.memFreqKHz)
    (hfreq : k.memFreqKHz < k.sysFreqKHz / 2) {req : Request} {sys : Nat}
    (hwake : s.wakeAt cfg req (cfg.sysToMemCycle sys) sys = some s') :
    s' = s ∨ ∃ ev cycle, (ev, cycle) ∈ s'.pending ∧ s'.nextSchedEvent = some ev ∧
      s'.nextSchedCycle = some (cfg.sysToMemCycle cycle) := by
  unfold DDRMemory.wakeAt at hwake
  dsimp only at hwake
  have hle : cfg.sysToMemCycle sys ≤
      max (cfg.sysToMemCycle sys) (s.ctl.minRespCycle - cfg.timing.tCL - cfg.timing.tBL) :=
    le_max_left _ _
  generalize max (cfg.sysToMemCycle sys) _ = low at hwake hle
  have hle' : cfg.sysToMemCycle sys ≤ if DDRMemory.isAfter s.nextSchedCycle low then
      max low (s.ctl.findMinCmdCycle cfg req) else low := by
    split
    · exact hle.trans (le_max_left _ _)
    · exact hle
  generalize (if DDRMemory.isAfter s.nextSchedCycle low then _ else _ : Nat) = t at hwake hle'
  split at hwake
  case isTrue =>
    obtain ⟨s1, -, hwake⟩ := Option.bind_eq_some_iff.mp hwake
    obtain ⟨-, hwake⟩ := Option.ite_none_right_eq_some.mp hwake
    cases hwake
    refine .inr ⟨_, _, List.mem_append_right _ (List.mem_singleton_self _), rfl, ?_⟩
    exact congrArg some (h.max_round_trip hmem hfreq hle').symm
  case isFalse =>
    cases hwake
    exact .inl rfl

end

/-- As long as no product wraps, the system cycle that matches a memory cycle is in it, and so is a
later one that is not in a later memory cycle; so that a tick comes in the memory cycle that it is
scheduled for. -/
theorem clocks_match (k : Clocks) (hmem : 0 < k.memFreqKHz)
    (hfreq : k.memFreqKHz < k.sysFreqKHz / 2) :
    (∀ m : UInt64, 1 ≤ m → (2 * m.toNat - 1) * k.sysFreqKHz.toNat < 2 ^ 64 →
      k.sysToMemCycle (k.matchingMemToSysCycle m) = m ∧
      ∀ s : UInt64, s.toNat * k.memFreqKHz.toNat < 2 ^ 64 → k.sysToMemCycle s ≤ m →
        k.sysToMemCycle (max (k.matchingMemToSysCycle m) s) = m) ∧
    ∀ cfg, k.Of cfg → ∀ s s' : DDRMemory,
      (∀ req sys, s.wakeAt cfg req (cfg.sysToMemCycle sys) sys = some s' → s' = s ∨
        ∃ ev cycle, (ev, cycle) ∈ s'.pending ∧ s'.nextSchedEvent = some ev ∧
          s'.nextSchedCycle = some (cfg.sysToMemCycle cycle)) ∧
      ∀ sys next, s.tick cfg sys = some (s', next) →
        s'.nextSchedCycle = none ∧ next = 0 ∨
          s'.nextSchedCycle = some (cfg.sysToMemCycle next) := by
  constructor
  · intro m hm hwrap
    exact ⟨Clocks.sysToMemCycle_matching hmem hfreq hm hwrap,
      fun s hs hle => Clocks.sysToMemCycle_max hmem hfreq hm hwrap hs hle⟩
  · intro cfg h s s'
    exact ⟨fun req sys hwake => h.wakeAt_next hmem hfreq hwake,
      fun sys next htick => h.tick_next hmem hfreq htick⟩

/-- The clocks of a system at 2 GHz with a memory whose `tCK` is 1.5 ns. -/
theorem clocks_match_example :
    let k : Clocks := ⟨2000000, 666666⟩
    k.matchingMemToSysCycle 1000 = 2998 ∧ k.sysToMemCycle 2998 = 1000 ∧
      k.sysToMemCycle (max 2998 3000) = 1000 := by
  have h := (clocks_match ⟨2000000, 666666⟩ (by decide) (by decide)).1 1000 (by decide) (by decide)
  exact ⟨by decide, h.1, h.2 3000 (by decide) (by decide)⟩

end Doppelganger.Dram
