import Doppelganger.Lib.Run
import Mathlib.Algebra.Group.Nat.Defs
import Mathlib.Order.Bounds.Basic

/-! The port of a `TimingCache`, of which two numbers keep the schedule.  In every sequence of
accesses at nondecreasing cycles no cycle is granted twice, and a high-priority access waits for no
free cycle.  Cycles are natural numbers; only the cycle before cycle 0 wraps. -/

namespace Doppelganger.Timing

open Lib

/-- `lastFreeCycle` is the end of the last free run, or 0 when that cycle is taken. -/
structure Ports where
  lastFreeCycle : Nat
  lastAccCycle : Nat
deriving DecidableEq, Repr

namespace Ports

/-- `cycle - 1`, of 64 bits. -/
def before (cycle : Nat) : Nat := if cycle = 0 then 2 ^ 64 - 1 else cycle - 1

/-- The cycle of the lookup, when the assertion holds. -/
def highPrioAccess (cycle : Nat) (p : Ports) : Option (Nat × Ports) :=
  if p.lastFreeCycle ≤ cycle then
    let lookupCycle := max cycle (p.lastAccCycle + 1)
    some (lookupCycle,
      { lastFreeCycle := if p.lastAccCycle < before cycle then before cycle else p.lastFreeCycle
        lastAccCycle := lookupCycle })
  else none

/-- The cycle when the access is granted, else 0. -/
def tryLowPrioAccess (cycle : Nat) (p : Ports) : Nat × Ports :=
  if p.lastAccCycle < before cycle ∨ p.lastFreeCycle = before cycle then
    (cycle, { lastFreeCycle := 0, lastAccCycle := max (before cycle) p.lastAccCycle })
  else (0, p)

end Ports

inductive Access
  | high (cycle : Nat)
  | low (cycle : Nat)
deriving DecidableEq, Repr

def Access.cycle : Access → Nat
  | .high cycle => cycle
  | .low cycle => cycle

/-- The port, and the cycles of it that were granted: to a high-priority access the cycle that it
returns, and to a low-priority one the cycle before its own. -/
structure Schedule where
  ports : Ports
  granted : List Nat

namespace Schedule

def start : Schedule := ⟨⟨0, 0⟩, []⟩

def step : Access → Schedule → Option Schedule
  | .high cycle, s => (s.ports.highPrioAccess cycle).map fun (lookupCycle, ports) =>
      ⟨ports, lookupCycle :: s.granted⟩
  | .low cycle, s =>
    let (lookupCycle, ports) := s.ports.tryLowPrioAccess cycle
    some ⟨ports, if lookupCycle ≠ 0 then (cycle - 1) :: s.granted else s.granted⟩

/-- From `cycle` on, the cycles up to `lastAccCycle` are the granted ones; of the cycles before,
only `lastFreeCycle` is known, to be free. -/
structure Inv (cycle : Nat) (s : Schedule) : Prop where
  nodup : s.granted.Nodup
  le_last : ∀ x ∈ s.granted, x ≤ s.ports.lastAccCycle
  filled : ∀ x, cycle ≤ x → x ≤ s.ports.lastAccCycle → x ∈ s.granted
  free : s.ports.lastFreeCycle = 0 ∨
    s.ports.lastFreeCycle < cycle ∧ s.ports.lastFreeCycle ∉ s.granted

section

variable {s : Schedule} {cycle cycle' x : Nat} {ops : List Access}

theorem before_eq (h : 2 ≤ cycle) : Ports.before cycle = cycle - 1 := if_neg (by omega)

theorem start_inv : Inv 1 start := by
  refine ⟨List.nodup_nil, by simp [start], fun x hx hle => ?_, .inl rfl⟩
  have hle : x ≤ 0 := hle
  omega

/-- A later access knows less of the past. -/
theorem Inv.mono (h : Inv cycle s) (hle : cycle ≤ cycle') : Inv cycle' s :=
  ⟨h.nodup, h.le_last, fun x hx => h.filled x (hle.trans hx),
    h.free.imp_right fun ⟨hlt, hfree⟩ => ⟨hlt.trans_le hle, hfree⟩⟩

/-- A cycle after the last granted one is free. -/
theorem Inv.not_granted (h : Inv cycle s) (hx : s.ports.lastAccCycle < x) : x ∉ s.granted :=
  fun hmem => absurd (h.le_last x hmem) (not_le_of_gt hx)

theorem Inv.high (h : Inv cycle s) (hcycle : 2 ≤ cycle) :
    ∃ ports, s.ports.highPrioAccess cycle = some (max cycle (s.ports.lastAccCycle + 1), ports) ∧
      Inv cycle ⟨ports, max cycle (s.ports.lastAccCycle + 1) :: s.granted⟩ := by
  have hassert : s.ports.lastFreeCycle ≤ cycle := by
    obtain hzero | ⟨hlt, -⟩ := h.free <;> omega
  have hnew : s.ports.lastAccCycle < max cycle (s.ports.lastAccCycle + 1) := by omega
  refine ⟨_, if_pos hassert, List.nodup_cons.mpr ⟨h.not_granted hnew, h.nodup⟩, ?_, ?_, ?_⟩
  · intro x hx
    obtain rfl | hx := List.mem_cons.mp hx
    · exact le_refl _
    · exact (h.le_last x hx).trans hnew.le
  · intro x hx hle
    by_cases hold : x ≤ s.ports.lastAccCycle
    · exact List.mem_cons_of_mem _ (h.filled x hx hold)
    · have hle : x ≤ max cycle (s.ports.lastAccCycle + 1) := hle
      have heq : x = max cycle (s.ports.lastAccCycle + 1) := by omega
      exact heq ▸ List.mem_cons_self
  · dsimp only
    rw [before_eq hcycle]
    split
    case isTrue hgap =>
      -- The run of free cycles before this access ends at the cycle before.
      refine .inr ⟨by omega, fun hmem => ?_⟩
      obtain heq | hmem := List.mem_cons.mp hmem
      · omega
      · exact h.not_granted hgap hmem
    case isFalse =>
      obtain hzero | ⟨hlt, hfree⟩ := h.free
      · exact .inl hzero
      · refine .inr ⟨hlt, fun hmem => ?_⟩
        obtain heq | hmem := List.mem_cons.mp hmem
        · omega
        · exact hfree hmem

theorem Inv.low (h : Inv cycle s) (hcycle : 2 ≤ cycle) :
    ∃ s', step (.low cycle) s = some s' ∧ Inv cycle s' := by
  unfold Schedule.step Ports.tryLowPrioAccess
  dsimp only
  rw [before_eq hcycle]
  by_cases hgrant : s.ports.lastAccCycle < cycle - 1 ∨ s.ports.lastFreeCycle = cycle - 1
  · have hnew : cycle - 1 ∉ s.granted := by
      obtain hgap | hlast := hgrant
      · exact h.not_granted hgap
      · obtain hzero | ⟨-, hfree⟩ := h.free
        · omega
        · exact hlast ▸ hfree
    rw [if_pos hgrant]
    dsimp only
    rw [if_pos (by omega)]
    refine ⟨_, rfl, List.nodup_cons.mpr ⟨hnew, h.nodup⟩, ?_, ?_, .inl rfl⟩
    · intro x hx
      obtain rfl | hx := List.mem_cons.mp hx
      · exact le_max_left _ _
      · exact (h.le_last x hx).trans (le_max_right _ _)
    · intro x hx hle
      have hle : x ≤ max (cycle - 1) s.ports.lastAccCycle := hle
      exact List.mem_cons_of_mem _ (h.filled x hx (by omega))
  · rw [if_neg hgrant]
    exact ⟨s, rfl, h⟩

theorem Inv.step (op : Access) (h : Inv op.cycle s) (hcycle : 2 ≤ op.cycle) :
    ∃ s', step op s = some s' ∧ Inv op.cycle s' := by
  cases op with
  | high cycle =>
    obtain ⟨ports, hports, h'⟩ := h.high hcycle
    exact ⟨_, Option.map_eq_some_iff.mpr ⟨_, hports, rfl⟩, h'⟩
  | low cycle => exact h.low hcycle

/-- A run, of which the last access is at `cycle'` at the latest. -/
theorem Inv.run (h : Inv cycle s) (hge : ∀ op ∈ ops, 2 ≤ op.cycle ∧ cycle ≤ op.cycle)
    (hsorted : ops.Pairwise fun op op' => op.cycle ≤ op'.cycle) (hle : cycle ≤ cycle')
    (hlast : ∀ op ∈ ops, op.cycle ≤ cycle') :
    ∃ s', Lib.run Schedule.step ops s = some s' ∧ Inv cycle' s' := by
  induction ops generalizing s cycle with
  | nil => exact ⟨s, rfl, h.mono hle⟩
  | cons op ops ih =>
    obtain ⟨hop, hops⟩ := List.pairwise_cons.mp hsorted
    obtain ⟨htwo, hcycle⟩ := hge op List.mem_cons_self
    obtain ⟨s1, h1, hs1⟩ := (h.mono hcycle).step op htwo
    obtain ⟨s2, h2, hs2⟩ := ih hs1
      (fun op' hmem => ⟨(hge op' (List.mem_cons_of_mem _ hmem)).1, hop op' hmem⟩) hops
      (hlast op List.mem_cons_self) fun op' hmem => hlast op' (List.mem_cons_of_mem _ hmem)
    exact ⟨s2, by rw [Lib.run, h1]; exact h2, hs2⟩

theorem exists_bound (ops : List Access) : ∃ bound, ∀ op ∈ ops, op.cycle ≤ bound := by
  induction ops with
  | nil => exact ⟨0, fun op hop => absurd hop List.not_mem_nil⟩
  | cons op ops ih =>
    obtain ⟨bound, hbound⟩ := ih
    refine ⟨max op.cycle bound, fun op' hop => ?_⟩
    obtain rfl | hop := List.mem_cons.mp hop
    · exact le_max_left _ _
    · exact (hbound op' hop).trans (le_max_right _ _)

/-- The first cycle after the last granted one is the first free one. -/
theorem Inv.isLeast (h : Inv cycle s) :
    IsLeast {x | cycle ≤ x ∧ x ∉ s.granted} (max cycle (s.ports.lastAccCycle + 1)) := by
  refine ⟨⟨le_max_left _ _, h.not_granted (by omega)⟩, ?_⟩
  rintro x ⟨hx, hfree⟩
  by_contra hlt
  exact hfree (h.filled x hx (by omega))

end

end Schedule

/-- After every sequence of accesses at nondecreasing cycles from 2 on, no cycle is granted twice,
and the assertion of the next high-priority access holds; it gets the first cycle from its own on
that is not granted, which is the first one after `lastAccCycle`. -/
theorem port_granted_once (ops : List Access) (hge : ∀ op ∈ ops, 2 ≤ op.cycle)
    (hsorted : ops.Pairwise fun op op' => op.cycle ≤ op'.cycle) :
    ∃ s, run Schedule.step ops Schedule.start = some s ∧ s.granted.Nodup ∧
      ∀ cycle, 2 ≤ cycle → (∀ op ∈ ops, op.cycle ≤ cycle) →
        ∃ lookupCycle ports, s.ports.highPrioAccess cycle = some (lookupCycle, ports) ∧
          IsLeast {x | cycle ≤ x ∧ x ∉ s.granted} lookupCycle ∧
          IsLeast {x | cycle ≤ x ∧ s.ports.lastAccCycle < x ∧ x ∉ s.granted} lookupCycle := by
  have hone : ∀ op ∈ ops, 2 ≤ op.cycle ∧ 1 ≤ op.cycle := fun op hop =>
    ⟨hge op hop, Nat.le_of_succ_le (hge op hop)⟩
  have hrun := fun cycle (hle : 1 ≤ cycle) (hlast : ∀ op ∈ ops, op.cycle ≤ cycle) =>
    Schedule.start_inv.run hone hsorted hle hlast
  obtain ⟨bound, hbound⟩ := Schedule.exists_bound ops
  obtain ⟨s, hs, hinv⟩ := hrun (bound + 1) (by omega) fun op hop =>
    (hbound op hop).trans (Nat.le_succ _)
  refine ⟨s, hs, hinv.nodup, fun cycle htwo hlast => ?_⟩
  obtain ⟨s', hs', hinv'⟩ := hrun cycle (by omega) hlast
  obtain rfl := Option.some.inj (hs.symm.trans hs')
  obtain ⟨ports, hports, -⟩ := hinv'.high htwo
  have hleast := hinv'.isLeast
  refine ⟨_, ports, hports, hleast, ⟨hleast.1.1, by omega, hleast.1.2⟩, ?_⟩
  exact fun x hx => hleast.2 ⟨hx.1, hx.2.2⟩

/-- The high-priority access at cycle 5 leaves cycle 4 free, which the first low-priority access
takes; the second one is refused. -/
theorem port_granted_once_five :
    (run Schedule.step [.high 5, .low 5, .low 5, .high 5] Schedule.start).map (·.granted) =
      some [6, 4, 5] ∧
    ∃ s, run Schedule.step [.high 5, .low 5, .low 5, .high 5] Schedule.start = some s ∧
      s.granted.Nodup ∧
      ∀ cycle, 2 ≤ cycle → (∀ op ∈ [Access.high 5, .low 5, .low 5, .high 5], op.cycle ≤ cycle) →
        ∃ lookupCycle ports, s.ports.highPrioAccess cycle = some (lookupCycle, ports) ∧
          IsLeast {x | cycle ≤ x ∧ x ∉ s.granted} lookupCycle ∧
          IsLeast {x | cycle ≤ x ∧ s.ports.lastAccCycle < x ∧ x ∉ s.granted} lookupCycle :=
  ⟨by decide, port_granted_once _ (by decide) (by decide)⟩

end Doppelganger.Timing
