import Doppelganger.Dram.Controller
import Mathlib.Tactic.Linarith

/-! The conversions between system cycles and memory cycles, and what the constructor checks. -/

namespace Doppelganger.Dram

namespace Config

/-- What the proofs use of the parameters. -/
structure Valid (cfg : Config) : Prop where
  mem_pos : 0 < cfg.timing.memFreqKHz
  freq : 2 * cfg.timing.memFreqKHz ≤ cfg.sysFreqKHz
  act_pos : 0 < cfg.timing.tRCD
  rp_le : cfg.timing.tRP ≤ cfg.timing.tRFC
  refresh : cfg.timing.tRFC + cfg.timing.tRP + cfg.timing.tRRD + cfg.timing.tFAW +
    cfg.timing.tRCD < cfg.timing.tREFI

end Config

/-- All that `initTech` changes is `tBL`. -/
theorem initTech_eq {tech : Tech} {lineSize : UInt32} {t : Timing}
    (h : initTech tech lineSize = some t) : ∃ tBL, t = { tech.timing with tBL := tBL } := by
  unfold initTech at h
  dsimp only at h
  split at h
  · exact ⟨_, (Option.some.inj h).symm⟩
  · split at h
    · exact ⟨_, (Option.some.inj h).symm⟩
    · cases h

theorem Args.valid {args : Args} {cfg : Config} (h : args.config = some cfg) : cfg.Valid := by
  obtain ⟨timing, htiming, h⟩ := Option.bind_eq_some_iff.mp h
  obtain ⟨hfreq, h⟩ := Option.ite_none_left_eq_some.mp h
  obtain ⟨addrMap, -, rfl⟩ := Option.map_eq_some_iff.mp h
  obtain ⟨tBL, rfl⟩ := initTech_eq htiming
  constructor
  case freq =>
    dsimp only at hfreq ⊢
    omega
  all_goals
    dsimp only
    cases args.tech <;> decide

/-- With a system clock that is at least twice as fast as the memory clock, the middle of a memory
cycle is in a system cycle that starts in it. -/
theorem matching_round_trip {sys mem m k : Nat} (hmem : 0 < mem) (hfreq : 2 * mem ≤ sys)
    (hm : m = k + 1) : (2 * m - 1) * sys / mem / 2 * mem / sys = k := by
  subst hm
  have hodd : 2 * (k + 1) - 1 = 2 * k + 1 := by omega
  rw [Nat.div_div_eq_div_mul, hodd]
  have hlow : (2 * k + 1) * sys / (mem * 2) * (mem * 2) ≤ (2 * k + 1) * sys :=
    Nat.div_mul_le_self _ _
  have hhigh : (2 * k + 1) * sys < ((2 * k + 1) * sys / (mem * 2) + 1) * (mem * 2) :=
    Nat.lt_mul_of_div_lt (Nat.lt_succ_self _) (by omega)
  generalize (2 * k + 1) * sys / (mem * 2) = q at *
  apply Nat.div_eq_of_lt_le
  · nlinarith
  · nlinarith

/-- A later system cycle that is not in a later memory cycle is in the same one. -/
theorem matching_max_round_trip {sys mem m s : Nat} (hmem : 0 < mem) (hfreq : 2 * mem ≤ sys)
    (hs : s * mem / sys + 1 ≤ m) :
    max ((2 * m - 1) * sys / mem / 2) s * mem / sys + 1 = m := by
  have hm : m = m - 1 + 1 := (Nat.sub_add_cancel ((Nat.succ_pos _).trans_le hs)).symm
  have hmatch := matching_round_trip hmem hfreq hm
  generalize (2 * m - 1) * sys / mem / 2 = c at hmatch ⊢
  obtain hmax | hmax := Nat.le_total s c
  · rw [Nat.max_eq_left hmax, hmatch, ← hm]
  · have hmono : c * mem / sys ≤ s * mem / sys :=
      Nat.div_le_div_right (Nat.mul_le_mul_right _ hmax)
    rw [Nat.max_eq_right hmax]
    omega

namespace Config

variable {cfg : Config} (h : cfg.Valid)

include h

theorem Valid.sys_pos : 0 < cfg.sysFreqKHz := by
  have hmem := h.mem_pos
  have hfreq := h.freq
  omega

omit h in
theorem sysToMemCycle_mono (cfg : Config) {a b : Nat} (hab : a ≤ b) :
    cfg.sysToMemCycle a ≤ cfg.sysToMemCycle b :=
  Nat.succ_le_succ (Nat.div_le_div_right (Nat.mul_le_mul_right _ hab))

omit h in
theorem sysToMemCycle_pos (a : Nat) : 0 < cfg.sysToMemCycle a := Nat.succ_pos _

/-- A matching cycle is no call for an idle event. -/
theorem Valid.matching_pos {m : Nat} (hm : 0 < m) : 0 < cfg.matchingMemToSysCycle m := by
  unfold matchingMemToSysCycle
  rw [Nat.div_div_eq_div_mul]
  apply Nat.div_pos
  · have hfreq := h.freq
    calc cfg.timing.memFreqKHz * 2 ≤ 1 * cfg.sysFreqKHz := by omega
      _ ≤ (2 * m - 1) * cfg.sysFreqKHz := Nat.mul_le_mul_right _ (by omega)
  · have hmem := h.mem_pos
    omega

/-- A refresh comes at least `tREFI` memory cycles after the one before. -/
theorem Valid.refInterval_le (a : Nat) :
    cfg.sysToMemCycle a + cfg.timing.tREFI ≤ cfg.sysToMemCycle (a + cfg.refInterval) := by
  have hpos := h.sys_pos
  have hmem := h.mem_pos
  have hfreq := h.freq
  unfold sysToMemCycle refInterval memToSysCycle
  generalize cfg.timing.memFreqKHz = mem at *
  generalize cfg.sysFreqKHz = sys at *
  generalize cfg.timing.tREFI = n at *
  have hhigh : (n + 1) * sys < ((n + 1) * sys / mem + 1) * mem :=
    Nat.lt_mul_of_div_lt (Nat.lt_succ_self _) hmem
  have hrounds : n * sys ≤ (n + 1) * sys / mem * mem := by nlinarith
  calc a * mem / sys + 1 + n = (a * mem + n * sys) / sys + 1 := by
        rw [Nat.add_mul_div_right _ _ hpos]
        omega
    _ ≤ (a + (n + 1) * sys / mem) * mem / sys + 1 := by
        apply Nat.succ_le_succ
        apply Nat.div_le_div_right
        rw [Nat.add_mul]
        omega

/-- A memory cycle ends after the system cycles that are in it. -/
theorem Valid.le_memToSysCycle {a m : Nat} (hm : cfg.sysToMemCycle a ≤ m) :
    a ≤ cfg.memToSysCycle m := by
  have hpos := h.sys_pos
  unfold sysToMemCycle at hm
  unfold memToSysCycle
  rw [Nat.le_div_iff_mul_le h.mem_pos]
  generalize cfg.timing.memFreqKHz = mem at *
  generalize cfg.sysFreqKHz = sys at *
  have hhigh : a * mem < (a * mem / sys + 1) * sys :=
    Nat.lt_mul_of_div_lt (Nat.lt_succ_self _) hpos
  calc a * mem ≤ (a * mem / sys + 1) * sys := hhigh.le
    _ ≤ (m + 1) * sys := Nat.mul_le_mul_right _ (by omega)

end Config

end Doppelganger.Dram
