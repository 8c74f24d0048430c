import Doppelganger.Core.WindowTable

/-! Runs of a `WindowStructure`.  As long as no cycle is requested 2^31 cycles ahead, it agrees with
the table; `longAdvance` does, too, when the cycles that it jumps to have no reservations. -/

namespace Doppelganger.Core

open Lib

namespace WindowStructure

variable {H WSZ : ℕ} {s s' : WindowStructure} {t : Table} {mask : BitVec 8}

/-! ### What is requested -/

/-- The extra slots are requested less than 2^31 cycles ahead. -/
def SlotsNear (H WSZ : ℕ) (portMask : BitVec 8) : ℕ → ℕ → WindowStructure → Prop
  | 0, _, _ => True
  | n + 1, extraSlotCycle, s => extraSlotCycle < s.curCycle + 2 ^ 31 ∧
    ∀ r, s.scheduleInternal H WSZ false false portMask extraSlotCycle = some r →
      SlotsNear H WSZ portMask n (r.2 + 1) r.1

/-- The cycles that an operation requests are less than 2^31 ahead, and its mask has ports. -/
def Near (H WSZ : ℕ) : WindowOp → WindowStructure → Prop
  | .schedule schedCycle portMask extraSlots, s =>
    portMask ≠ 0 ∧ schedCycle < s.curCycle + 2 ^ 31 ∧
      ∀ r, s.scheduleInternal H WSZ true (extraSlots ≠ 0) portMask schedCycle = some r →
        SlotsNear H WSZ (1#8 <<< r.1.lastPort) extraSlots (r.2 + 1) r.1
  | .poisonRange targetCycle portMask, s => portMask ≠ 0 ∧ targetCycle ≤ s.curCycle + 2 ^ 31
  | .advancePos, _ => True
  | .longAdvance targetCycle, s => s.curCycle ≤ targetCycle

instance decidableSlotsNear (portMask : BitVec 8) : ∀ (n extraSlotCycle : ℕ)
    (s : WindowStructure), Decidable (SlotsNear H WSZ portMask n extraSlotCycle s)
  | 0, _, _ => isTrue trivial
  | n + 1, extraSlotCycle, s =>
    match hr : s.scheduleInternal H WSZ false false portMask extraSlotCycle with
    | none => decidable_of_iff (extraSlotCycle < s.curCycle + 2 ^ 31)
      ⟨fun hlt => ⟨hlt, fun _ hr' => absurd (hr'.symm.trans hr) (Option.some_ne_none _)⟩, And.left⟩
    | some r =>
      have : Decidable (SlotsNear H WSZ portMask n (r.2 + 1) r.1) := decidableSlotsNear ..
      decidable_of_iff (extraSlotCycle < s.curCycle + 2 ^ 31 ∧
          SlotsNear H WSZ portMask n (r.2 + 1) r.1)
        ⟨fun h => ⟨h.1, fun _ hr' => Option.some.inj (hr.symm.trans hr') ▸ h.2⟩,
          fun h => ⟨h.1, h.2 r hr⟩⟩

instance (op : WindowOp) (s : WindowStructure) : Decidable (Near H WSZ op s) :=
  match op with
  | .schedule schedCycle portMask extraSlots =>
    match hr : s.scheduleInternal H WSZ true (extraSlots ≠ 0) portMask schedCycle with
    | none => decidable_of_iff (portMask ≠ 0 ∧ schedCycle < s.curCycle + 2 ^ 31)
      ⟨fun h => ⟨h.1, h.2, fun _ hr' => absurd (hr'.symm.trans hr) (Option.some_ne_none _)⟩,
        fun h => ⟨h.1, h.2.1⟩⟩
    | some r => decidable_of_iff (portMask ≠ 0 ∧ schedCycle < s.curCycle + 2 ^ 31 ∧
        SlotsNear H WSZ (1#8 <<< r.1.lastPort) extraSlots (r.2 + 1) r.1)
      ⟨fun h => ⟨h.1, h.2.1, fun _ hr' => Option.some.inj (hr.symm.trans hr') ▸ h.2.2⟩,
        fun h => ⟨h.1, h.2.1, h.2.2 r hr⟩⟩
  | .poisonRange targetCycle portMask =>
    inferInstanceAs (Decidable (portMask ≠ 0 ∧ targetCycle ≤ s.curCycle + 2 ^ 31))
  | .advancePos => isTrue trivial
  | .longAdvance targetCycle => inferInstanceAs (Decidable (s.curCycle ≤ targetCycle))

theorem Agrees.scheduleSlots (h : Agrees H WSZ s t) (hH : H < 2 ^ 31) {ports : List ℕ}
    {n request : ℕ}
    (hmask : n ≠ 0 → mask ≠ 0 ∧ portsOf mask = ports) (hnear : SlotsNear H WSZ mask n request s) :
    ∃ s', s.scheduleSlots H WSZ mask n request = some s' ∧
      Agrees H WSZ s' (t.slots ports n request) := by
  induction n generalizing s t request with
  | zero => exact ⟨s, rfl, h⟩
  | succ n ih =>
    obtain ⟨hmask', hports⟩ := hmask (Nat.succ_ne_zero n)
    obtain ⟨s1, heq, h1, -⟩ := h.shadow hH hmask' hnear.1
    rw [hports] at heq h1
    obtain ⟨s2, heq2, h2⟩ := ih h1 (fun _ => ⟨hmask', hports⟩) (hnear.2 _ heq)
    refine ⟨s2, ?_, h2⟩
    unfold WindowStructure.scheduleSlots
    rw [heq]
    exact heq2

theorem Agrees.schedule (h : Agrees H WSZ s t) (hH : H < 2 ^ 31) (hWSZ : 0 < WSZ)
    {request extraSlots : ℕ} (hnear : Near H WSZ (.schedule request mask extraSlots) s) :
    ∃ s', s.schedule H WSZ request mask extraSlots =
        some (s', (t.schedule WSZ request (portsOf mask) extraSlots).2) ∧
      Agrees H WSZ s' (t.schedule WSZ request (portsOf mask) extraSlots).1 := by
  obtain ⟨hmask, hrequest, hslots⟩ := hnear
  obtain ⟨s1, heq, h1, hport⟩ := h.uop hH hWSZ hmask (extraSlots ≠ 0) hrequest
  obtain ⟨s2, heq2, h2⟩ := h1.scheduleSlots hH (fun hne => hport (decide_eq_true hne))
    (hslots _ heq)
  refine ⟨s2, ?_, h2⟩
  unfold WindowStructure.schedule
  dsimp only at heq2
  rw [heq, Option.bind_some]
  dsimp only
  rw [heq2, Option.bind_some, if_pos h2.room]
  rfl

/-! ### Poison -/

/-- A request that takes all ports of a mask leaves none. -/
theorem Placed.avail {request c : ℕ} (h : Placed H false mask request s s' c) :
    (s'.entry H c).avail mask = 0 := by
  apply BitVec.eq_of_getLsbD_eq
  intro p _
  rw [h.here, getLsbD_avail, trySchedule_units _ h.free]
  have hmem : decide (p ∈ taken false (portsOf ((s.entry H c).avail mask))) =
      (mask.getLsbD p && !(s.entry H c).occUnits.getLsbD p) := by
    rw [← getLsbD_avail, Bool.eq_iff_iff, decide_eq_true_iff]
    exact mem_portsOf
  rw [hmem]
  cases mask.getLsbD p <;> cases (s.entry H c).occUnits.getLsbD p <;> simp

theorem Agrees.poison (h : Agrees H WSZ s t) (hH : H < 2 ^ 31) (hmask : mask ≠ 0)
    {target request n : ℕ} (hge : s.curCycle ≤ request) (hnear : target ≤ s.curCycle + 2 ^ 31)
    (hn : target - request + (if (s.entry H request).avail mask = 0 then 0 else 1) ≤ n) :
    ∃ s', s.poison H WSZ target mask n request = some s' ∧
      Agrees H WSZ s' (t.poison (portsOf mask) target n request) := by
  induction n generalizing s t request with
  | zero =>
    unfold WindowStructure.poison
    rw [if_neg (by omega)]
    exact ⟨s, rfl, h⟩
  | succ n ih =>
    unfold WindowStructure.poison Table.poison
    by_cases hlt : request < target
    · obtain ⟨s1, heq, h1, hcycle, s2, hplaced, hentry⟩ := h.shadow hH hmask
        (show request < s.curCycle + 2 ^ 31 by omega)
      rw [if_pos hlt, if_pos hlt]
      dsimp only
      rw [heq, Option.bind_some]
      generalize (t.place false (portsOf mask) request).2 = c at hplaced
      have hle := hplaced.le
      have hnone : (s1.entry H c).avail mask = 0 := by
        rw [hentry]
        exact hplaced.avail
      -- a cycle that has no port is left behind
      have hnext : (s.entry H request).avail mask = 0 → request < c := by
        intro hfull
        by_contra hnot
        have hsame : c = request := by omega
        exact hplaced.free (hsame ▸ hfull)
      refine ih h1 (by omega) (by omega) ?_
      rw [if_pos hnone]
      by_cases hfull : (s.entry H request).avail mask = 0
      · have := hnext hfull
        rw [if_pos hfull] at hn
        omega
      · rw [if_neg hfull] at hn
        omega
    · rw [if_neg hlt, if_neg hlt]
      exact ⟨s, rfl, h⟩

theorem Agrees.poisonRange (h : Agrees H WSZ s t) (hH : H < 2 ^ 31) {target : ℕ}
    (hnear : Near H WSZ (.poisonRange target mask) s) :
    ∃ s', s.poisonRange H WSZ target mask = some s' ∧ Agrees H WSZ s'
      (t.poison (portsOf mask) target (target - t.curCycle + 1) t.curCycle) := by
  rw [h.curCycle]
  refine h.poison hH hnear.1 le_rfl hnear.2 ?_
  split <;> omega

/-! ### Jumps -/

/-- From cycle `d` on, and not before, no uop of the window is left. -/
structure DrainsAt (H : ℕ) (s : WindowStructure) (d : ℕ) : Prop where
  le : s.curCycle ≤ d
  idle : ∀ c, d ≤ c → (s.entry H c).count = 0
  first : ∀ d', s.curCycle ≤ d' → (∀ c, d' ≤ c → (s.entry H c).count = 0) → d ≤ d'

/-- When the window drains before the target, its ports are free from then on, up to the end of the
windows after the jump. -/
def Clear (H targetCycle : ℕ) (s : WindowStructure) : Prop :=
  ∀ d, DrainsAt H s d → d < targetCycle → ∀ c, d ≤ c → (s.entry H c).occUnits ≠ 0 →
    targetCycle + 2 * H ≤ c + (s.curPos + (d - s.curCycle)) % H

theorem Agrees.drainTo (h : Agrees H WSZ s t) (hH : H < 2 ^ 31) {target n : ℕ}
    (hn : s.curCycle + n = target) :
    ∃ s', s.drainTo H target n = some s' ∧ Agrees H WSZ s' { t with curCycle := s'.curCycle } ∧
      s.curCycle ≤ s'.curCycle ∧ s'.curCycle ≤ target ∧
      (s'.occupancy ≠ 0 → s'.curCycle = target) ∧
      s'.curPos = (s.curPos + (s'.curCycle - s.curCycle)) % H ∧
      (∀ c, s'.curCycle ≤ c → s'.entry H c = s.entry H c) ∧
      ∀ d, s.curCycle ≤ d → d < s'.curCycle → countFrom t.bookings d ≠ 0 := by
  have hpos : s.curPos = (s.curPos + (s.curCycle - s.curCycle)) % H := by
    rw [Nat.sub_self, Nat.add_zero, Nat.mod_eq_of_lt h.inv.pos]
  have hself : Agrees H WSZ s { t with curCycle := s.curCycle } := by
    rw [← h.curCycle]
    exact h
  induction n generalizing s t with
  | zero =>
    exact ⟨s, rfl, hself, le_rfl, by omega, fun _ => by omega, hpos, fun _ _ => rfl,
      fun d h1 h2 => absurd h1 (Nat.not_le.mpr h2)⟩
  | succ n ih =>
    unfold WindowStructure.drainTo
    by_cases hgo : s.occupancy ≠ 0 ∧ s.curCycle < target
    · obtain ⟨s1, heq, h1, hcycle, hpos1, hentry⟩ := h.advancePos hH
      obtain ⟨s2, heq2, h2, hle, hle', hend, hpos2, hentry2, hbusy⟩ := ih h1 (by omega)
        (by rw [Nat.sub_self, Nat.add_zero, Nat.mod_eq_of_lt h1.inv.pos])
        (by rw [hcycle, ← h.curCycle]; exact h1)
      rw [if_pos hgo, heq, Option.bind_some]
      refine ⟨s2, heq2, h2, by omega, hle', hend, ?_, fun c hc => ?_, fun d hd hd' => ?_⟩
      · rw [hpos2, hpos1, Nat.mod_add_mod]
        congr 1
        omega
      · rw [hentry2 c hc, hentry c (by omega)]
      · by_cases hhere : d = s.curCycle
        · rw [hhere, ← h.occupancy]
          exact hgo.1
        · exact hbusy d (by omega) hd'
    · rw [if_neg hgo]
      refine ⟨s, rfl, hself, le_rfl, by omega, fun hne => ?_, hpos, fun _ _ => rfl,
        fun d h1 h2 => absurd h1 (Nat.not_le.mpr h2)⟩
      by_contra hne'
      exact hgo ⟨hne, by omega⟩

/-- In a drained window, what is not beyond the two windows after a jump is empty. -/
theorem Agrees.blank (h : Agrees H WSZ s t) (hempty : s.occupancy = 0) {target : ℕ}
    (hclear : ∀ c, s.curCycle ≤ c → (s.entry H c).occUnits ≠ 0 → target + 2 * H ≤ c + s.curPos)
    {c : ℕ} (hc : s.curCycle ≤ c) (hlt : c + s.curPos < target + 2 * H) :
    s.entry H c = .empty := by
  have hocc : (s.entry H c).occUnits = 0 := by
    by_contra hne
    have := hclear c hc hne
    omega
  have hcount : (s.entry H c).count = 0 := by
    rw [h.counts c hc]
    exact countFrom_eq_zero.mp (h.occupancy.symm.trans hempty) c hc
  calc s.entry H c = ⟨(s.entry H c).occUnits, (s.entry H c).count⟩ := rfl
    _ = .empty := by rw [hocc, hcount]; rfl

theorem Agrees.entry_jump (h : Agrees H WSZ s t) (hempty : s.occupancy = 0) {target : ℕ}
    (hle : s.curCycle ≤ target) (hclear : ∀ c, s.curCycle ≤ c → (s.entry H c).occUnits ≠ 0 →
      target + 2 * H ≤ c + s.curPos) {c : ℕ} (hc : target ≤ c) :
    entry H { s with curCycle := target } c = s.entry H c := by
  by_cases hnear : c + s.curPos < target + 2 * H
  · -- the position is that of an earlier cycle, and both are empty
    have hback := h.blank hempty hclear (c := c - target + s.curCycle) (by omega) (by omega)
    have hsame : s.curPos + (c - target + s.curCycle - s.curCycle) = s.curPos + (c - target) := by
      omega
    rw [h.blank hempty hclear (hle.trans hc) hnear]
    unfold entry at hback ⊢
    dsimp only at hback ⊢
    rw [hsame] at hback
    split
    case isTrue hcur => rwa [if_pos hcur] at hback
    case isFalse hcur =>
      rw [if_neg hcur] at hback
      rw [if_pos (by omega)] at hback ⊢
      exact hback
  · have hfar : entry H { s with curCycle := target } c = get .empty s.ubWin c :=
      entry_far (show 2 * H ≤ s.curPos + (c - target) by omega)
    rw [hfar, entry_far (by omega)]

/-- A jump of a drained window to where it is clear. -/
theorem Agrees.jump (h : Agrees H WSZ s t) (hempty : s.occupancy = 0) {target : ℕ}
    (hle : s.curCycle ≤ target) (hclear : ∀ c, s.curCycle ≤ c → (s.entry H c).occUnits ≠ 0 →
      target + 2 * H ≤ c + s.curPos) :
    Agrees H WSZ { s with curCycle := target } { t with curCycle := target } := by
  have hpos := h.inv.pos
  constructor
  case inv =>
    refine ⟨hpos, h.inv.past, h.inv.sorted, fun e he => ?_, h.inv.used⟩
    have hkey := h.inv.beyond e he
    have hget : s.entry H e.1 = e.2 := by
      rw [entry_far (by omega)]
      exact get_of_mem h.inv.sorted he
    exact hclear e.1 (by omega) (by rw [hget]; exact h.inv.used e he)
  case curCycle => rfl
  case units =>
    intro c hc p
    rw [h.entry_jump hempty hle hclear hc]
    exact h.units c (hle.trans hc) p
  case counts =>
    intro c hc
    rw [h.entry_jump hempty hle hclear hc]
    exact h.counts c (hle.trans hc)
  case occupancy =>
    have hnone := countFrom_eq_zero.mp (h.occupancy.symm.trans hempty)
    exact hempty.trans (countFrom_eq_zero.mpr fun c hc => hnone c (hle.trans hc)).symm
  case room => exact h.room
  case distinct => exact h.distinct

theorem Agrees.longAdvance (h : Agrees H WSZ s t) (hH : H < 2 ^ 31) {target : ℕ}
    (hle : s.curCycle ≤ target) (hclear : Clear H target s) :
    ∃ s', s.longAdvance H target = some s' ∧ Agrees H WSZ s' { t with curCycle := target } := by
  obtain ⟨s1, heq, h1, hle1, hle1', hend, hpos, hentry, hbusy⟩ :=
    h.drainTo hH (show s.curCycle + (target - s.curCycle) = target by omega)
  unfold WindowStructure.longAdvance
  rw [if_pos hle, heq, Option.bind_some]
  by_cases hdrained : s1.occupancy ≠ 0
  · have hcycle := hend hdrained
    rw [if_pos hdrained, if_pos hcycle]
    exact ⟨s1, rfl, hcycle ▸ h1⟩
  · have hempty : s1.occupancy = 0 := not_not.mp hdrained
    rw [if_neg hdrained, if_pos hle1']
    refine ⟨_, rfl, ?_⟩
    by_cases hlast : s1.curCycle = target
    · rw [← hlast]
      exact h1
    · have hcounts : ∀ c, s.curCycle ≤ c → (s.entry H c).count = countAt t.bookings c := h.counts
      have hnone : countFrom t.bookings s1.curCycle = 0 := h1.occupancy.symm.trans hempty
      have hdrains : DrainsAt H s s1.curCycle := by
        constructor
        case le => exact hle1
        case idle =>
          intro c hc
          rw [hcounts c (hle1.trans hc)]
          exact countFrom_eq_zero.mp hnone c hc
        case first =>
          intro d hd hidle
          by_contra hlt
          refine hbusy d hd (Nat.lt_of_not_le hlt) (countFrom_eq_zero.mpr fun c hc => ?_)
          rw [← hcounts c (hd.trans hc)]
          exact hidle c hc
      refine h1.jump hempty hle1' fun c hc hne => ?_
      rw [hentry c hc] at hne
      rw [hpos]
      exact hclear _ hdrains (by omega) c hc hne

/-- After a jump that keeps the agreement, all that the windows held was free. -/
theorem Agrees.clear_of_jump (h : Agrees H WSZ s t) {target : ℕ} (hlt : s.curCycle < target)
    (hjump : Agrees H WSZ { s with curCycle := target } { t with curCycle := target }) {c : ℕ}
    (hc : s.curCycle ≤ c) (hnear : c + s.curPos < target + 2 * H) :
    (s.entry H c).occUnits = 0 := by
  have hpos := h.inv.pos
  -- a position of the windows is now a later cycle, whose ports must be the same
  induction hk : target + 2 * H - c using Nat.strong_induction_on generalizing c with
  | _ k ih =>
    by_cases hwin : s.curPos + (c - s.curCycle) < 2 * H
    · have hlater := ih _ (by omega) (show s.curCycle ≤ c + (target - s.curCycle) by omega)
        (by omega) rfl
      have hsame : entry H { s with curCycle := target } (c + (target - s.curCycle)) =
          s.entry H c := by
        have hindex : s.curPos + (c + (target - s.curCycle) - target) =
            s.curPos + (c - s.curCycle) := by omega
        unfold entry
        dsimp only
        rw [hindex]
        split
        · rfl
        · rfl
      apply BitVec.eq_of_getLsbD_eq
      intro p _
      have hunits := hjump.units (c + (target - s.curCycle)) (show target ≤ _ by omega) p
      rw [hsame] at hunits
      rw [hunits, ← hlater]
      exact (h.units _ (by omega) p).symm
    · have hempty : s.entry H c = .empty := by
        rw [entry_far (by omega)]
        refine get_of_not_key fun e he heq => ?_
        have hkey : target + 2 * H ≤ e.1 + s.curPos := hjump.inv.beyond e he
        omega
      rw [hempty]
      rfl

/-- The window is clear exactly when `longAdvance` moves the clock and no reservation. -/
theorem Agrees.longAdvance_iff (h : Agrees H WSZ s t) (hH : H < 2 ^ 31) {target : ℕ}
    (hle : s.curCycle ≤ target) :
    (∃ s', s.longAdvance H target = some s' ∧ Agrees H WSZ s' { t with curCycle := target }) ↔
      Clear H target s := by
  constructor
  case mpr => exact h.longAdvance hH hle
  rintro ⟨s', heq, h'⟩ d hdrains hlt c hc hne
  obtain ⟨s1, heq1, h1, hle1, hle1', hend, hpos, hentry, hbusy⟩ :=
    h.drainTo hH (show s.curCycle + (target - s.curCycle) = target by omega)
  have hidle : countFrom t.bookings d = 0 := by
    apply countFrom_eq_zero.mpr
    intro i hi
    rw [← h.counts i (hdrains.le.trans hi)]
    exact hdrains.idle i hi
  have hge : s1.curCycle ≤ d := by
    by_contra hnot
    exact hbusy d hdrains.le (by omega) hidle
  have hempty : s1.occupancy = 0 := by
    by_contra hbusy1
    have := hend hbusy1
    omega
  have hsame : d = s1.curCycle := by
    apply le_antisymm _ hge
    apply hdrains.first s1.curCycle hle1
    intro i hi
    rw [h.counts i (hle1.trans hi)]
    exact countFrom_eq_zero.mp (h1.occupancy.symm.trans hempty) i hi
  unfold WindowStructure.longAdvance at heq
  rw [if_pos hle, heq1, Option.bind_some, if_neg (not_not.mpr hempty), if_pos hle1'] at heq
  obtain rfl := Option.some.inj heq
  by_contra hnear
  rw [hsame] at hc hlt hnear
  rw [← hpos] at hnear
  rw [← hentry c hc] at hne
  exact hne (h1.clear_of_jump hlt h' hc (by omega))

/-! ### Runs -/

/-- The requests of an operation are near, and a jump goes to where the window is clear. -/
def Allowed (H WSZ : ℕ) (op : WindowOp) (s : WindowStructure) : Prop :=
  Near H WSZ op s ∧ ∀ targetCycle, op = .longAdvance targetCycle → Clear H targetCycle s

theorem Agrees.step (h : Agrees H WSZ s t) (hH : H < 2 ^ 31) (hWSZ : 0 < WSZ) {op : WindowOp}
    (hallowed : Allowed H WSZ op s) :
    ∃ s' t', step H WSZ op s = some s' ∧ t.step WSZ op = some t' ∧ Agrees H WSZ s' t' ∧
      scheduled H WSZ op s = t.scheduled WSZ op := by
  obtain ⟨hnear, hclear⟩ := hallowed
  cases op with
  | schedule request mask extraSlots =>
    obtain ⟨s', heq, h'⟩ := h.schedule hH hWSZ hnear
    refine ⟨s', _, ?_, rfl, h', ?_⟩
    · unfold WindowStructure.step
      dsimp only
      rw [heq]
      rfl
    · unfold WindowStructure.scheduled Table.scheduled
      dsimp only
      rw [heq]
      rfl
  | poisonRange target mask =>
    obtain ⟨s', heq, h'⟩ := h.poisonRange hH hnear
    exact ⟨s', _, heq, rfl, h', rfl⟩
  | advancePos =>
    obtain ⟨s', heq, h', -⟩ := h.advancePos hH
    exact ⟨s', _, heq, rfl, h', rfl⟩
  | longAdvance target =>
    obtain ⟨s', heq, h'⟩ := h.longAdvance hH hnear (hclear target rfl)
    exact ⟨s', _, heq, rfl, h', rfl⟩

theorem init_agrees (hH : 0 < H) (curCycle : ℕ) :
    Agrees H WSZ (init curCycle) ⟨curCycle, []⟩ := by
  have hentry : ∀ c, (init curCycle).entry H c = .empty := by
    intro c
    unfold entry init
    dsimp only
    split
    · rfl
    · split <;> rfl
  constructor
  case inv => exact init_inv hH curCycle
  case curCycle => rfl
  case units =>
    intro c _ p
    rw [hentry]
    exact BitVec.getLsbD_zero
  case counts =>
    intro c _
    rw [hentry]
    rfl
  case occupancy => rfl
  case room => exact Nat.zero_le _
  case distinct => exact List.Pairwise.nil

theorem run_agrees (hH : 0 < H) (hH' : H < 2 ^ 31) (hWSZ : 0 < WSZ) (curCycle : ℕ)
    {ops : List WindowOp} (hallowed : Along (step H WSZ) (Allowed H WSZ) ops (init curCycle)) :
    ∃ s t, run (step H WSZ) ops (init curCycle) = some s ∧
      run (Table.step WSZ) ops ⟨curCycle, []⟩ = some t ∧ Agrees H WSZ s t ∧
      emitted (step H WSZ) (scheduled H WSZ) ops (init curCycle) =
        emitted (Table.step WSZ) (Table.scheduled WSZ) ops ⟨curCycle, []⟩ := by
  have hStep : ∀ op s t, Agrees H WSZ s t → Allowed H WSZ op s →
      ∃ s' t', step H WSZ op s = some s' ∧ t.step WSZ op = some t' ∧ Agrees H WSZ s' t' ∧
        scheduled H WSZ op s = t.scheduled WSZ op :=
    fun _ _ _ h hok => h.step hH' hWSZ hok
  exact run_simulates hStep (init_agrees hH curCycle) hallowed

/-- Whatever is scheduled, poisoned and advanced, a uop gets the cycle that it gets in the table;
and in every state the ports that are taken from the current cycle on are those of the table, none
of which is reserved twice, and `occupancy` is the number of uops among them. -/
theorem window_agrees (hH : 0 < H) (hH' : H < 2 ^ 31) (hWSZ : 0 < WSZ) (curCycle : ℕ)
    (ops : List WindowOp) (hops : ∀ targetCycle, .longAdvance targetCycle ∉ ops)
    (hnear : Along (step H WSZ) (Near H WSZ) ops (init curCycle)) :
    ∃ s t, run (step H WSZ) ops (init curCycle) = some s ∧
      run (Table.step WSZ) ops ⟨curCycle, []⟩ = some t ∧
      emitted (step H WSZ) (scheduled H WSZ) ops (init curCycle) =
        emitted (Table.step WSZ) (Table.scheduled WSZ) ops ⟨curCycle, []⟩ ∧
      t.curCycle = s.curCycle ∧
      (∀ c, s.curCycle ≤ c → ∀ port,
        (s.entry H c).occUnits.getLsbD port = booked t.bookings c port) ∧
      Distinct t.bookings ∧ s.occupancy = countFrom t.bookings s.curCycle ∧ s.occupancy ≤ WSZ := by
  have hno : ∀ op ∈ ops, ∀ targetCycle, op ≠ .longAdvance targetCycle := by
    rintro op hop targetCycle rfl
    exact hops targetCycle hop
  have hallowed : Along (step H WSZ) (Allowed H WSZ) ops (init curCycle) := by
    refine @Along.of_keeps _ _ _ _ _ (fun _ => True)
      (fun op s _ hok => ⟨⟨hok.1, ?_⟩, fun _ _ => trivial⟩) _ _ trivial
      (along_and hnear (along_of_mem hno _))
    exact fun targetCycle heq => absurd heq (hok.2 targetCycle)
  obtain ⟨s, t, hrun, hrun', h, hout⟩ := run_agrees hH hH' hWSZ curCycle hallowed
  exact ⟨s, t, hrun, hrun', hout, h.curCycle, h.units, h.distinct, h.occupancy, h.room⟩

theorem window_agrees_run : ∃ s t, run (step 1024 36)
      [.schedule 2 0x23 1, .poisonRange 4 0x4, .advancePos, .schedule 2 0x1 0] (init 0) = some s ∧
    run (Table.step 36) [.schedule 2 0x23 1, .poisonRange 4 0x4, .advancePos, .schedule 2 0x1 0]
      ⟨0, []⟩ = some t ∧
    ∀ c, s.curCycle ≤ c → ∀ port,
      (s.entry 1024 c).occUnits.getLsbD port = booked t.bookings c port := by
  obtain ⟨s, t, hrun, hrun', -, -, hunits, -⟩ := @window_agrees 1024 36 (by decide) (by decide)
    (by decide) 0 [.schedule 2 0x23 1, .poisonRange 4 0x4, .advancePos, .schedule 2 0x1 0] (by simp)
    (by decide +kernel)
  exact ⟨s, t, hrun, hrun', hunits⟩

/-- When every jump is to where the window is clear, no assertion fails, and in every state the
ports that are taken from the current cycle on are those of the table, where a jump moves the clock
only; nothing else is left, and the keys of the map are after both windows. -/
theorem longAdvance_keeps (hH : 0 < H) (hH' : H < 2 ^ 31) (hWSZ : 0 < WSZ) (curCycle : ℕ)
    (ops : List WindowOp) (hnear : Along (step H WSZ) (Near H WSZ) ops (init curCycle))
    (hclear : Along (step H WSZ)
      (fun op s => ∀ targetCycle, op = .longAdvance targetCycle → Clear H targetCycle s) ops
      (init curCycle)) :
    ∃ s t, run (step H WSZ) ops (init curCycle) = some s ∧
      run (Table.step WSZ) ops ⟨curCycle, []⟩ = some t ∧ t.curCycle = s.curCycle ∧
      (∀ c, s.curCycle ≤ c → (s.entry H c).count = countAt t.bookings c ∧
        ∀ port, (s.entry H c).occUnits.getLsbD port = booked t.bookings c port) ∧
      (∀ pos < s.curPos, s.curWin pos = .empty) ∧
      ∀ e ∈ s.ubWin, s.curCycle + 2 * H ≤ e.1 + s.curPos := by
  obtain ⟨s, t, hrun, hrun', h, -⟩ :=
    run_agrees hH hH' hWSZ curCycle (along_and hnear hclear)
  exact ⟨s, t, hrun, hrun', h.curCycle, fun c hc => ⟨h.counts c hc, h.units c hc⟩, h.inv.past,
    h.inv.beyond⟩

theorem longAdvance_keeps_run : ∃ s t,
    run (step 1024 36) [.schedule 3 0x1 0, .longAdvance 2] (init 0) = some s ∧
    run (Table.step 36) [.schedule 3 0x1 0, .longAdvance 2] ⟨0, []⟩ = some t ∧
    ∀ c, s.curCycle ≤ c → (s.entry 1024 c).count = countAt t.bookings c := by
  have hclear : Along (step 1024 36)
      (fun op s => ∀ targetCycle, op = .longAdvance targetCycle → Clear 1024 targetCycle s)
      [.schedule 3 0x1 0, .longAdvance 2] (init 0) := by
    refine ⟨fun targetCycle h => WindowOp.noConfusion h, fun s hs => ⟨?_, fun _ _ => trivial⟩⟩
    rintro _ ⟨⟩ d hdrains hlt
    have hidle := hdrains.idle 3 (by omega)
    obtain rfl := Option.some.inj hs
    exact absurd hidle (by decide +kernel)
  obtain ⟨s, t, hrun, hrun', -, hunits, -⟩ := @longAdvance_keeps 1024 36 (by decide) (by decide)
    (by decide) 0 [.schedule 3 0x1 0, .longAdvance 2] (by decide +kernel) hclear
  exact ⟨s, t, hrun, hrun', fun c hc => (hunits c hc).1⟩

/-- A uop with an extra slot is issued in cycle 0; after a jump to cycle 10, the slot of cycle 1 is
one of cycle 10. -/
theorem jump_moves_slot : ∃ s s', run (step 1024 36) [.schedule 0 0x1 1] (init 0) = some s ∧
    s.longAdvance 1024 10 = some s' ∧ s'.curCycle = 10 ∧ (s.entry 1024 1).occUnits = 0x1 ∧
    (s.entry 1024 10).occUnits = 0 ∧ (s'.entry 1024 10).occUnits = 0x1 :=
  ⟨_, _, rfl, rfl, by decide +kernel, by decide +kernel, by decide +kernel, by decide +kernel⟩

end WindowStructure

end Doppelganger.Core
