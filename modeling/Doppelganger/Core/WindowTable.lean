import Doppelganger.Core.WindowEntries

/-! A table of reservations for all cycles, which is what a `WindowStructure` stands for: a uop gets
the earliest cycle that has a port for it, and a reservation never moves. -/

namespace Doppelganger.Core

open Lib

/-- All reservations up to now, and the clock. -/
structure Table where
  curCycle : ℕ
  bookings : List (Reservation ℕ)

namespace Table

/-- The clock when there is room for one more uop. -/
noncomputable def drain (WSZ : ℕ) (t : Table) : Table :=
  { t with curCycle := sInf {cycle | t.curCycle ≤ cycle ∧ countFrom t.bookings cycle < WSZ} }

/-- A request for one of `ports`, and the cycle that it gets. -/
noncomputable def place (counted : Bool) (ports : List ℕ) (request : ℕ) (t : Table) : Table × ℕ :=
  let (bookings, cycle) := reserve counted ports (max request t.curCycle) t.bookings
  ({ t with bookings := bookings }, cycle)

/-- A port for `n` more cycles, each after the one before it. -/
noncomputable def slots (ports : List ℕ) : ℕ → ℕ → Table → Table
  | 0, _, t => t
  | n + 1, request, t =>
    let (t, cycle) := t.place false ports request
    slots ports n (cycle + 1) t

/-- A uop, and the cycle that it gets; its extra slots are on the port that it takes. -/
noncomputable def schedule (WSZ request : ℕ) (ports : List ℕ) (extraSlots : ℕ) (t : Table) :
    Table × ℕ :=
  let t := t.drain WSZ
  let (t', cycle) := t.place true ports request
  (t'.slots (taken true (free t.bookings ports cycle)) extraSlots (cycle + 1), cycle)

/-- Requests until one gets the cycle `target` or a later one. -/
noncomputable def poison (ports : List ℕ) (target : ℕ) : ℕ → ℕ → Table → Table
  | 0, _, t => t
  | n + 1, request, t =>
    if request < target then
      let (t, cycle) := t.place false ports request
      poison ports target n cycle t
    else t

noncomputable def step (WSZ : ℕ) : WindowOp → Table → Option Table
  | .schedule schedCycle portMask extraSlots, t =>
    some (t.schedule WSZ schedCycle (portsOf portMask) extraSlots).1
  | .poisonRange targetCycle portMask, t =>
    some (t.poison (portsOf portMask) targetCycle (targetCycle - t.curCycle + 1) t.curCycle)
  | .advancePos, t => some { t with curCycle := t.curCycle + 1 }
  | .longAdvance targetCycle, t => some { t with curCycle := targetCycle }

noncomputable def scheduled (WSZ : ℕ) : WindowOp → Table → List ℕ
  | .schedule schedCycle portMask extraSlots, t =>
    [(t.schedule WSZ schedCycle (portsOf portMask) extraSlots).2]
  | _, _ => []

variable {WSZ : ℕ} {t : Table}

theorem drain_of_lt (h : countFrom t.bookings t.curCycle < WSZ) : t.drain WSZ = t := by
  have hmin :
      sInf {cycle | t.curCycle ≤ cycle ∧ countFrom t.bookings cycle < WSZ} = t.curCycle := by
    apply le_antisymm
    · exact Nat.sInf_le ⟨le_rfl, h⟩
    · exact (Nat.sInf_mem (s := {cycle | t.curCycle ≤ cycle ∧ countFrom t.bookings cycle < WSZ})
        ⟨t.curCycle, le_rfl, h⟩).1
  unfold drain
  rw [hmin]

theorem drain_succ (h : ¬countFrom t.bookings t.curCycle < WSZ) :
    t.drain WSZ = { t with curCycle := t.curCycle + 1 }.drain WSZ := by
  have hsame : {cycle | t.curCycle ≤ cycle ∧ countFrom t.bookings cycle < WSZ} =
      {cycle | t.curCycle + 1 ≤ cycle ∧ countFrom t.bookings cycle < WSZ} := by
    ext cycle
    constructor
    · rintro ⟨hle, hlt⟩
      have hne : cycle ≠ t.curCycle := by
        rintro rfl
        exact h hlt
      exact ⟨by omega, hlt⟩
    · rintro ⟨hle, hlt⟩
      exact ⟨by omega, hlt⟩
  unfold drain
  dsimp only
  rw [hsame]

end Table

namespace WindowStructure

variable {H WSZ : ℕ} {s s' : WindowStructure} {t : Table} {touch : Bool} {mask : BitVec 8}

/-- The entries of the cycles to come are those of the table. -/
structure Agrees (H WSZ : ℕ) (s : WindowStructure) (t : Table) : Prop where
  inv : s.Inv H
  curCycle : t.curCycle = s.curCycle
  units : ∀ c, s.curCycle ≤ c → ∀ p, (s.entry H c).occUnits.getLsbD p = booked t.bookings c p
  counts : ∀ c, s.curCycle ≤ c → (s.entry H c).count = countAt t.bookings c
  occupancy : s.occupancy = countFrom t.bookings s.curCycle
  room : s.occupancy ≤ WSZ
  distinct : Distinct t.bookings

/-- The ports that an entry has are those that are free in the table. -/
theorem Agrees.ports (h : Agrees H WSZ s t) {c : ℕ} (hc : s.curCycle ≤ c) (mask : BitVec 8) :
    portsOf ((s.entry H c).avail mask) = free t.bookings (portsOf mask) c := by
  unfold portsOf free
  rw [List.filter_filter]
  apply List.filter_congr
  intro p _
  rw [getLsbD_avail, h.units c hc, Bool.and_comm]

/-! ### The clock -/

theorem Agrees.advancePos (h : Agrees H WSZ s t) (hH : H < 2 ^ 31) :
    ∃ s', s.advancePos H = some s' ∧ Agrees H WSZ s' { t with curCycle := t.curCycle + 1 } ∧
      s'.curCycle = s.curCycle + 1 ∧ s'.curPos = (s.curPos + 1) % H ∧
      ∀ c, s.curCycle < c → s'.entry H c = s.entry H c := by
  obtain ⟨s', heq, hinv, hcycle, hpos, hocc, hentry⟩ := h.inv.advancePos hH
  refine ⟨s', heq, ?_, hcycle, hpos, hentry⟩
  have hcount := h.counts s.curCycle le_rfl
  have hsplit := countFrom_succ t.bookings s.curCycle
  have hold := h.occupancy
  have hroom := h.room
  constructor
  case inv => exact hinv
  case curCycle =>
    dsimp only
    rw [hcycle, h.curCycle]
  case units =>
    intro c hc p
    rw [hentry c (by omega)]
    exact h.units c (by omega) p
  case counts =>
    intro c hc
    rw [hentry c (by omega)]
    exact h.counts c (by omega)
  case occupancy =>
    dsimp only
    rw [hcycle]
    omega
  case room => omega
  case distinct => exact h.distinct

/-- While the window is full, the clock of both goes on. -/
theorem Agrees.drain (h : Agrees H WSZ s t) (hH : H < 2 ^ 31) (n : ℕ)
    (hn : countFrom t.bookings (s.curCycle + n) < WSZ) :
    ∃ s', drain H WSZ n s = some s' ∧ Agrees H WSZ s' (t.drain WSZ) ∧ s'.occupancy < WSZ ∧
      s.curCycle ≤ s'.curCycle := by
  have hocc := h.occupancy
  have hroom := h.room
  induction n generalizing s t with
  | zero =>
    have hlt : countFrom t.bookings t.curCycle < WSZ := by rw [h.curCycle]; exact hn
    refine ⟨s, if_neg (by rw [hocc, ← h.curCycle]; omega), ?_,
      by rw [hocc, ← h.curCycle]; exact hlt,
      le_rfl⟩
    rw [Table.drain_of_lt hlt]
    exact h
  | succ n ih =>
    unfold WindowStructure.drain
    by_cases hfull : s.occupancy = WSZ
    · obtain ⟨s1, heq, h1, hcycle, -⟩ := h.advancePos hH
      have hn1 : countFrom t.bookings (s1.curCycle + n) < WSZ := by
        rw [hcycle, Nat.add_assoc, Nat.add_comm 1 n]
        exact hn
      obtain ⟨s2, heq2, h2, hlt, hle⟩ := ih h1 hn1 h1.occupancy h1.room
      rw [if_pos hfull]
      dsimp only
      rw [heq, Option.bind_some, Table.drain_succ (by rw [h.curCycle]; omega)]
      exact ⟨s2, heq2, h2, hlt, by omega⟩
    · have hlt : countFrom t.bookings t.curCycle < WSZ := by rw [h.curCycle]; omega
      rw [if_neg hfull, Table.drain_of_lt hlt]
      exact ⟨s, rfl, h, by omega, le_rfl⟩

theorem lt_mapEnd {l : List (ℕ × WinCycle)} {e : ℕ × WinCycle} (he : e ∈ l) : e.1 < mapEnd l := by
  unfold mapEnd
  induction l with
  | nil => exact absurd he List.not_mem_nil
  | cons e' l ih =>
    rw [List.foldr_cons]
    rcases List.mem_cons.mp he with rfl | he
    · omega
    · have := ih he
      omega

/-- No reservation that counts is as far ahead. -/
theorem Agrees.countFrom_farthest (h : Agrees H WSZ s t) :
    countFrom t.bookings (s.curCycle + s.farthest H) = 0 := by
  apply countFrom_eq_zero.mpr
  intro c hc
  have hpos := h.inv.pos
  unfold farthest at hc
  rw [← h.counts c (by omega), entry_far (by omega), get_of_not_key]
  · rfl
  · intro e he
    have := lt_mapEnd he
    omega

/-! ### Requests -/

/-- The counters of a request. -/
def counted (touch record : Bool) (availMask : BitVec 8) (s : WindowStructure) : WindowStructure :=
  { s with
    lastPort := if record then firstAvail availMask else s.lastPort
    occupancy := if touch then s.occupancy + 1 else s.occupancy }

theorem Inv.counted (h : s.Inv H) (record : Bool) (availMask : BitVec 8) :
    (s.counted touch record availMask).Inv H := ⟨h.pos, h.past, h.sorted, h.beyond, h.used⟩

/-- The cycle of a request is the earliest of the table that has a port. -/
theorem Agrees.earliest_eq (h : Agrees H WSZ s t) {request c : ℕ}
    (hplaced : Placed H touch mask (max request s.curCycle) s s' c) :
    free t.bookings (portsOf mask) c ≠ [] ∧
      earliest t.bookings (portsOf mask) (max request t.curCycle) = c := by
  have hfree : free t.bookings (portsOf mask) c ≠ [] := by
    rw [← h.ports ((le_max_right _ _).trans hplaced.le) mask]
    exact fun hnil => hplaced.free (portsOf_eq_nil.mp hnil)
  refine ⟨hfree, ?_⟩
  rw [h.curCycle]
  refine Lib.earliest_eq hplaced.le hfree fun i h1 h2 => ?_
  rw [← h.ports (by omega), portsOf_eq_nil]
  exact hplaced.before i h1 h2

/-- A request gets the same cycle and the same ports in both. -/
theorem Agrees.placed (h : Agrees H WSZ s t) {request c : ℕ} (hinv : s'.Inv H)
    (hplaced : Placed H touch mask (max request s.curCycle) s s' c)
    (hroom : touch = true → s.occupancy < WSZ) (record : Bool) :
    (t.place touch (portsOf mask) request).2 = c ∧
      Agrees H WSZ (s'.counted touch record ((s.entry H c).avail mask))
        (t.place touch (portsOf mask) request).1 := by
  have hge : s.curCycle ≤ c := (le_max_right _ _).trans hplaced.le
  have hports := h.ports hge mask
  obtain ⟨hfree, hearliest⟩ := h.earliest_eq hplaced
  have hmask : portsOf mask ≠ [] := by
    intro hnil
    rw [hnil] at hfree
    exact hfree rfl
  refine ⟨hearliest, ?_⟩
  constructor
  case inv => exact hinv.counted record _
  case curCycle => exact h.curCycle.trans hplaced.curCycle.symm
  case units =>
    intro i hi p
    have hi' : s.curCycle ≤ i := hplaced.curCycle ▸ hi
    show (s'.entry H i).occUnits.getLsbD p =
      booked (reserve touch (portsOf mask) (max request t.curCycle) t.bookings).1 i p
    rw [booked_reserve]
    show _ = (booked t.bookings i p || decide (i = earliest _ _ _ ∧ p ∈ taken touch
      (free t.bookings (portsOf mask) (earliest _ _ _))))
    rw [hearliest, ← h.units i hi' p]
    by_cases hic : i = c
    · rw [hic, hplaced.here, trySchedule_units _ hplaced.free, hports]
      simp only [true_and]
    · rw [hplaced.others i hi' hic, decide_eq_false fun hand => hic hand.1, Bool.or_false]
  case counts =>
    intro i hi
    have hi' : s.curCycle ≤ i := hplaced.curCycle ▸ hi
    refine Eq.trans ?_ (countAt_reserve hmask).symm
    rw [hearliest, ← h.counts i hi']
    show (s'.entry H i).count = _
    by_cases hic : i = c
    · rw [hic, hplaced.here, trySchedule_count hplaced.free]
      simp only [and_true]
    · rw [hplaced.others i hi' hic, if_neg fun hand => hic hand.2, Nat.add_zero]
  case occupancy =>
    have hcycle : (s'.counted touch record ((s.entry H c).avail mask)).curCycle = s.curCycle :=
      hplaced.curCycle
    rw [hcycle]
    refine Eq.trans ?_ (countFrom_reserve hmask (by rw [h.curCycle]; exact le_max_right _ _)).symm
    rw [← h.occupancy, ← hplaced.occupancy]
    unfold WindowStructure.counted
    dsimp only
    split <;> rfl
  case room =>
    have hold := h.room
    have hocc := hplaced.occupancy
    unfold WindowStructure.counted
    dsimp only
    split
    case isTrue htouch =>
      have := hroom htouch
      omega
    case isFalse => omega
  case distinct =>
    exact h.distinct.reserve (List.nodup_range.filter _)

/-- A request for a port that does not count. -/
theorem Agrees.shadow (h : Agrees H WSZ s t) (hH : H < 2 ^ 31) (hmask : mask ≠ 0) {request : ℕ}
    (hnear : request < s.curCycle + 2 ^ 31) :
    ∃ s', s.scheduleInternal H WSZ false false mask request =
        some (s', (t.place false (portsOf mask) request).2) ∧
      Agrees H WSZ s' (t.place false (portsOf mask) request).1 ∧ s'.curCycle = s.curCycle ∧
      ∃ s1, Placed H false mask (max request s.curCycle) s s1
        (t.place false (portsOf mask) request).2 ∧ s'.entry H = s1.entry H := by
  obtain ⟨s1, c, heq, hinv, hplaced⟩ := h.inv.place false hH hmask hnear
  obtain ⟨hcycle, hagrees⟩ := h.placed hinv hplaced (fun htouch => absurd htouch (by decide)) false
  refine ⟨_, ?_, hagrees, hplaced.curCycle, s1, by rw [hcycle]; exact hplaced, rfl⟩
  unfold WindowStructure.scheduleInternal
  rw [if_neg Bool.false_ne_true, Option.bind_some, heq, hcycle]
  rfl

/-- A uop, which waits until there is room for it. -/
theorem Agrees.uop (h : Agrees H WSZ s t) (hH : H < 2 ^ 31) (hWSZ : 0 < WSZ) (hmask : mask ≠ 0)
    (record : Bool) {request : ℕ} (hnear : request < s.curCycle + 2 ^ 31) :
    ∃ s', s.scheduleInternal H WSZ true record mask request =
        some (s', ((t.drain WSZ).place true (portsOf mask) request).2) ∧
      Agrees H WSZ s' ((t.drain WSZ).place true (portsOf mask) request).1 ∧
      (record = true → 1#8 <<< s'.lastPort ≠ 0 ∧ portsOf (1#8 <<< s'.lastPort) =
        taken true (free (t.drain WSZ).bookings (portsOf mask)
          ((t.drain WSZ).place true (portsOf mask) request).2)) := by
  obtain ⟨s0, hdrain, h0, hlt, hle⟩ := h.drain hH (s.farthest H)
    (by rw [h.countFrom_farthest]; exact hWSZ)
  obtain ⟨s1, c, heq, hinv, hplaced⟩ := h0.inv.place true hH hmask
    (show request < s0.curCycle + 2 ^ 31 by omega)
  obtain ⟨hcycle, hagrees⟩ := h0.placed hinv hplaced (fun _ => hlt) record
  refine ⟨_, ?_, hagrees, fun hrecord => ?_⟩
  · unfold WindowStructure.scheduleInternal
    rw [if_pos rfl, hdrain, Option.bind_some, heq, hcycle]
    rfl
  · have hport : (s1.counted true record ((s0.entry H c).avail mask)).lastPort =
        firstAvail ((s0.entry H c).avail mask) := if_pos hrecord
    have hge : s0.curCycle ≤ c := (le_max_right _ _).trans hplaced.le
    have hports : portsOf (1#8 <<< firstAvail ((s0.entry H c).avail mask)) =
        taken true (free (t.drain WSZ).bookings (portsOf mask) c) := by
      rw [portsOf_firstAvail hplaced.free, h0.ports hge mask]
    rw [hport, hcycle]
    refine ⟨fun hzero => ?_, hports⟩
    have hne := getLsbD_firstAvail hplaced.free
    obtain ⟨q, -, htaken⟩ := taken_counted fun hnil => hplaced.free (portsOf_eq_nil.mp hnil)
    have hset := hne q
    rw [hzero, htaken, decide_eq_true (List.mem_singleton_self q)] at hset
    exact Bool.false_ne_true (BitVec.getLsbD_zero.symm.trans hset)

end WindowStructure

end Doppelganger.Core
