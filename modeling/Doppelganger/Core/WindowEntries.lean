import Doppelganger.Core.Window
import Doppelganger.Lib.Reservations
import Mathlib.Tactic.ByContra

/-! The entry of each cycle, wherever the structure keeps it: the clock and the rebases leave the
entries of the cycles to come as they are, and a request changes the one of the earliest cycle that
has a port for it. -/

namespace Doppelganger.Core

open Lib Function

/-- The ports of a mask that are free in an entry. -/
def WinCycle.avail (wc : WinCycle) (portMask : BitVec 8) : BitVec 8 := ~~~wc.occUnits &&& portMask

theorem trySchedule_snd (touchOccupancy : Bool) (wc : WinCycle) (portMask : BitVec 8) :
    (trySchedule touchOccupancy wc portMask).2 = wc.avail portMask := by
  unfold trySchedule
  dsimp only
  split
  · split <;> rfl
  · rfl

theorem avail_empty (portMask : BitVec 8) : WinCycle.empty.avail portMask = portMask := by
  show ~~~(0#8) &&& portMask = portMask
  rw [BitVec.not_zero, BitVec.allOnes_and]

/-! ### Ports -/

theorem mem_portsOf {mask : BitVec 8} {p : ℕ} : p ∈ portsOf mask ↔ mask.getLsbD p = true := by
  unfold portsOf
  rw [List.mem_filter, List.mem_range]
  constructor
  · exact And.right
  · intro hp
    exact ⟨BitVec.lt_of_getLsbD hp, hp⟩

theorem portsOf_eq_nil {mask : BitVec 8} : portsOf mask = [] ↔ mask = 0 := by
  constructor
  · intro hnil
    apply BitVec.eq_of_getLsbD_eq
    intro i _
    have hout : mask.getLsbD i ≠ true := fun hi => by
      have hmem := mem_portsOf.mpr hi
      rw [hnil] at hmem
      exact List.not_mem_nil hmem
    rw [Bool.eq_false_iff.mpr hout]
    exact BitVec.getLsbD_zero.symm
  · rintro rfl
    decide

theorem getLsbD_avail (wc : WinCycle) (mask : BitVec 8) (p : ℕ) :
    (wc.avail mask).getLsbD p = (mask.getLsbD p && !wc.occUnits.getLsbD p) := by
  unfold WinCycle.avail
  rw [BitVec.getLsbD_and, BitVec.getLsbD_not]
  cases hmask : mask.getLsbD p with
  | false => rw [Bool.and_false, Bool.false_and]
  | true => rw [decide_eq_true (BitVec.lt_of_getLsbD hmask), Bool.true_and, Bool.and_true]

/-- The first port that is available, and only this one, is set. -/
theorem getLsbD_firstAvail {availMask : BitVec 8} (h : availMask ≠ 0) (p : ℕ) :
    (1#8 <<< firstAvail availMask).getLsbD p =
      decide (p ∈ taken true (portsOf availMask)) := by
  obtain ⟨q, hhead, htaken⟩ := taken_counted fun hnil => h (portsOf_eq_nil.mp hnil)
  have hq : q < 8 := BitVec.lt_of_getLsbD (mem_portsOf.mp (List.mem_of_mem_head? hhead))
  unfold firstAvail
  rw [htaken, hhead, Option.getD_some, ← BitVec.twoPow_eq, BitVec.getLsbD_twoPow,
    decide_eq_true hq, Bool.true_and, decide_eq_decide, List.mem_singleton]
  exact eq_comm

theorem portsOf_firstAvail {availMask : BitVec 8} (h : availMask ≠ 0) :
    portsOf (1#8 <<< firstAvail availMask) = taken true (portsOf availMask) := by
  obtain ⟨q, hhead, htaken⟩ := taken_counted fun hnil => h (portsOf_eq_nil.mp hnil)
  have hq : q < 8 := BitVec.lt_of_getLsbD (mem_portsOf.mp (List.mem_of_mem_head? hhead))
  have hall : ∀ q < 8, portsOf (1#8 <<< q) = [q] := by decide
  rw [htaken, firstAvail, hhead, Option.getD_some]
  exact hall q hq

/-- A request that succeeds sets the ports that it takes. -/
theorem trySchedule_units (touch : Bool) {wc : WinCycle} {mask : BitVec 8}
    (hfree : wc.avail mask ≠ 0) (p : ℕ) : (trySchedule touch wc mask).1.occUnits.getLsbD p =
      (wc.occUnits.getLsbD p || decide (p ∈ taken touch (portsOf (wc.avail mask)))) := by
  have hne : ~~~wc.occUnits &&& mask ≠ 0 := hfree
  unfold trySchedule
  dsimp only
  cases touch with
  | true =>
    rw [if_pos rfl, if_pos hne]
    dsimp only
    rw [BitVec.getLsbD_or, getLsbD_firstAvail hne]
    rfl
  | false =>
    rw [if_neg Bool.false_ne_true]
    dsimp only
    rw [BitVec.getLsbD_or]
    have hmem : decide (p ∈ taken false (portsOf (wc.avail mask))) =
        (mask.getLsbD p && !wc.occUnits.getLsbD p) := by
      rw [← getLsbD_avail, Bool.eq_iff_iff, decide_eq_true_iff]
      exact mem_portsOf
    rw [hmem]
    cases wc.occUnits.getLsbD p <;> simp

theorem trySchedule_count {touch : Bool} {wc : WinCycle} {mask : BitVec 8}
    (hfree : wc.avail mask ≠ 0) :
    (trySchedule touch wc mask).1.count = wc.count + if touch = true then 1 else 0 := by
  have hne : ~~~wc.occUnits &&& mask ≠ 0 := hfree
  unfold trySchedule
  dsimp only
  cases touch with
  | true => rw [if_pos rfl, if_pos hne, if_pos rfl]
  | false => rw [if_neg Bool.false_ne_true, if_neg Bool.false_ne_true, Nat.add_zero]

theorem trySchedule_used {touch : Bool} {wc : WinCycle} {mask : BitVec 8}
    (hfree : wc.avail mask ≠ 0) : (trySchedule touch wc mask).1.occUnits ≠ 0 := by
  intro hzero
  obtain ⟨q, hhead, htaken⟩ := taken_counted fun hnil => hfree (portsOf_eq_nil.mp hnil)
  have hq : q ∈ taken touch (portsOf (wc.avail mask)) := by
    cases touch with
    | true =>
      rw [htaken]
      exact List.mem_singleton_self q
    | false => exact List.mem_of_mem_head? hhead
  have hset := trySchedule_units touch hfree q
  rw [hzero, decide_eq_true hq, Bool.or_true, BitVec.ofNat_eq_ofNat, BitVec.getLsbD_zero] at hset
  exact Bool.false_ne_true hset

namespace WindowStructure

variable {H WSZ : ℕ} {s s' : WindowStructure} {touch : Bool} {mask : BitVec 8}

/-- The entry of a cycle that is not past. -/
def entry (H : ℕ) (s : WindowStructure) (cycle : ℕ) : WinCycle :=
  let pos := s.curPos + (cycle - s.curCycle)
  if pos < H then s.curWin pos
  else if pos < 2 * H then s.nextWin (pos - H)
  else get .empty s.ubWin cycle

/-- The past of the window is empty, and the keys of the map are in order and after the windows. -/
structure Inv (H : ℕ) (s : WindowStructure) : Prop where
  pos : s.curPos < H
  past : ∀ pos < s.curPos, s.curWin pos = .empty
  sorted : Ascending Prod.fst s.ubWin
  beyond : ∀ e ∈ s.ubWin, s.curCycle + 2 * H ≤ e.1 + s.curPos
  used : ∀ e ∈ s.ubWin, e.2.occUnits ≠ 0

theorem init_inv (hH : 0 < H) (curCycle : ℕ) : (init curCycle).Inv H where
  pos := hH
  past _ _ := rfl
  sorted := List.Pairwise.nil
  beyond _ he := absurd he List.not_mem_nil
  used _ he := absurd he List.not_mem_nil

/-! ### The clock -/

/-- The entries of the map that are in the window go there, and the others stay. -/
theorem fillNext_spec {l : List (ℕ × WinCycle)} (win : ℕ → WinCycle) (cycle : ℕ)
    (hH : H < 2 ^ 31) (hsorted : Ascending Prod.fst l) (hbeyond : ∀ e ∈ l, cycle + H ≤ e.1) :
    ∃ win' rest, fillNext H cycle l win = some (win', rest) ∧
      (∀ pos < H, win' pos = get (win pos) l (cycle + H + pos)) ∧
      (∀ c, cycle + 2 * H ≤ c → get .empty rest c = get .empty l c) ∧
      Ascending Prod.fst rest ∧ ∀ e ∈ rest, e ∈ l ∧ cycle + 2 * H ≤ e.1 := by
  induction l generalizing win with
  | nil =>
    exact ⟨win, [], rfl, fun _ _ => rfl, fun _ _ => rfl, hsorted, fun e he => absurd he
      List.not_mem_nil⟩
  | cons e l ih =>
    obtain ⟨k, wc⟩ := e
    have hk : cycle + H ≤ k := hbeyond (k, wc) List.mem_cons_self
    obtain ⟨hfirst, hrest⟩ := List.pairwise_cons.mp hsorted
    unfold fillNext
    by_cases hin : k < cycle + 2 * H
    · have hpos : (((k : ℤ) - H - cycle) % 2 ^ 32).toNat = k - (cycle + H) := by omega
      dsimp only
      rw [if_pos hin, hpos, if_pos (by omega)]
      obtain ⟨win', rest, heq, hwin, hget, hasc, hfar⟩ :=
        ih (update win (k - (cycle + H)) wc) hrest fun e he => hbeyond e (List.mem_cons_of_mem _ he)
      refine ⟨win', rest, heq, fun pos hpos' => ?_, fun c hc => ?_, hasc,
        fun e he => ⟨List.mem_cons_of_mem _ (hfar e he).1, (hfar e he).2⟩⟩
      · rw [hwin pos hpos', get_cons]
        by_cases hhere : cycle + H + pos = k
        · have hp : pos = k - (cycle + H) := by omega
          rw [if_pos hhere, hp, update_self]
          refine get_of_not_key fun e he heq' => ?_
          have := hfirst e he
          dsimp only at this
          omega
        · have hp : pos ≠ k - (cycle + H) := by omega
          rw [if_neg hhere, update_of_ne hp]
      · rw [hget c hc, get_cons, if_neg (by omega)]
    · rw [if_neg hin]
      refine ⟨win, (k, wc) :: l, rfl, fun pos hpos => ?_, fun _ _ => rfl, hsorted, fun e he => ?_⟩
      · refine (get_of_not_key fun e he heq => ?_).symm
        have := hsorted.head_le e he
        dsimp only at this
        omega
      · refine ⟨he, ?_⟩
        have := hsorted.head_le e he
        dsimp only at this
        omega

/-- An advance lets the entry of the current cycle go, and moves no other. -/
theorem Inv.advancePos (h : s.Inv H) (hH : H < 2 ^ 31) :
    ∃ s', s.advancePos H = some s' ∧ s'.Inv H ∧ s'.curCycle = s.curCycle + 1 ∧
      s'.curPos = (s.curPos + 1) % H ∧
      s'.occupancy = s.occupancy - (s.entry H s.curCycle).count ∧
      ∀ c, s.curCycle < c → s'.entry H c = s.entry H c := by
  have hpos := h.pos
  have hcur : s.entry H s.curCycle = s.curWin s.curPos := by
    unfold entry
    dsimp only
    rw [Nat.sub_self, Nat.add_zero, if_pos hpos]
  rw [hcur]
  have hpast : ∀ pos < s.curPos + 1, update s.curWin s.curPos WinCycle.empty pos = .empty := by
    intro pos hp
    by_cases hhere : pos = s.curPos
    · rw [hhere, update_self]
    · rw [update_of_ne hhere]
      exact h.past pos (by omega)
  unfold WindowStructure.advancePos
  dsimp only
  by_cases hlast : s.curPos + 1 = H
  · obtain ⟨win, rest, heq, hwin, hget, hasc, hfar⟩ :=
      fillNext_spec (update s.curWin s.curPos .empty) (s.curCycle + 1) hH h.sorted
        fun e he => by have := h.beyond e he; omega
    rw [if_pos hlast, heq]
    refine ⟨_, rfl, ⟨show 0 < H by omega, fun pos hp => absurd hp (Nat.not_lt_zero pos), hasc,
      fun e he => (hfar e he).2, fun e he => h.used e (hfar e he).1⟩, rfl,
      by rw [hlast, Nat.mod_self], rfl, fun c hc => ?_⟩
    unfold entry
    dsimp only
    rw [Nat.zero_add]
    split
    case isTrue hnear =>
      rw [if_neg (by omega), if_pos (by omega)]
      congr 1
      omega
    case isFalse hnear =>
      rw [if_neg (show ¬s.curPos + (c - s.curCycle) < H by omega),
        if_neg (show ¬s.curPos + (c - s.curCycle) < 2 * H by omega)]
      split
      · rw [hwin _ (by omega), hpast _ (by omega)]
        congr 1
        omega
      · exact hget c (by omega)
  · rw [if_neg hlast]
    refine ⟨_, rfl, ⟨by dsimp only; omega, hpast, h.sorted, fun e he => ?_, h.used⟩, rfl,
      (Nat.mod_eq_of_lt (show s.curPos + 1 < H by omega)).symm, rfl, fun c hc => ?_⟩
    · have := h.beyond e he
      dsimp only
      omega
    · unfold entry
      dsimp only
      have hsame : s.curPos + 1 + (c - (s.curCycle + 1)) = s.curPos + (c - s.curCycle) := by omega
      rw [hsame, update_of_ne (by omega)]

/-! ### Requests -/

/-- The loop over a window stops at the first position that has a port. -/
theorem tryWindow_cases (touch : Bool) (mask : BitVec 8) (win : ℕ → WinCycle) (n pos : ℕ) :
    (∃ k, pos ≤ k ∧ k < pos + n ∧ (win k).avail mask ≠ 0 ∧
      (∀ i, pos ≤ i → i < k → (win i).avail mask = 0) ∧
      tryWindow touch mask win n pos =
        some (update win k (trySchedule touch (win k) mask).1, k, (win k).avail mask)) ∨
    (∀ i, pos ≤ i → i < pos + n → (win i).avail mask = 0) ∧
      tryWindow touch mask win n pos = none := by
  induction n generalizing pos with
  | zero => exact .inr ⟨fun i h1 h2 => absurd h1 (Nat.not_le.mpr h2), rfl⟩
  | succ n ih =>
    unfold tryWindow
    dsimp only
    rw [trySchedule_snd]
    by_cases hfree : (win pos).avail mask ≠ 0
    · rw [if_pos hfree]
      exact .inl ⟨pos, le_rfl, by omega, hfree, fun i h1 h2 => absurd h1 (Nat.not_le.mpr h2), rfl⟩
    · rw [if_neg hfree]
      have hfirst : (win pos).avail mask = 0 := not_not.mp hfree
      obtain ⟨k, hle, hlt, hk, hbefore, heq⟩ | ⟨hnone, heq⟩ := ih (pos + 1)
      · refine .inl ⟨k, by omega, by omega, hk, fun i h1 h2 => ?_, heq⟩
        by_cases hi : i = pos
        · rw [hi, hfirst]
        · exact hbefore i (by omega) h2
      · refine .inr ⟨fun i h1 h2 => ?_, heq⟩
        by_cases hi : i = pos
        · rw [hi, hfirst]
        · exact hnone i (by omega) (by omega)

/-- What the loop over the map does: the first cycle from `cycle` on that has a port. -/
structure MapTaken (touch : Bool) (mask : BitVec 8) (l : List (ℕ × WinCycle)) (cycle : ℕ)
    (l' : List (ℕ × WinCycle)) (c : ℕ) : Prop where
  le : cycle ≤ c
  free : (get .empty l c).avail mask ≠ 0
  before : ∀ i, cycle ≤ i → i < c → (get .empty l i).avail mask = 0
  values : ∀ i, get .empty l' i =
    if i = c then (trySchedule touch (get .empty l c) mask).1 else get .empty l i
  sorted : Ascending Prod.fst l'
  keys : ∀ e ∈ l', e.1 = c ∨ ∃ e' ∈ l, e'.1 = e.1
  used : (∀ e ∈ l, e.2.occUnits ≠ 0) → ∀ e ∈ l', e.2.occUnits ≠ 0

/-- The entry of the cycle has a port, or there is none yet; `rest` is what comes after it. -/
theorem mapTaken_head {l rest : List (ℕ × WinCycle)} {k : ℕ}
    (hfree : (get .empty l k).avail mask ≠ 0)
    (hget : ∀ i, i ≠ k → get .empty rest i = get .empty l i) (hlater : ∀ e ∈ rest, k < e.1)
    (hsorted : Ascending Prod.fst rest) (hsub : ∀ e ∈ rest, e ∈ l) :
    MapTaken touch mask l k ((k, (trySchedule touch (get .empty l k) mask).1) :: rest) k := by
  constructor
  case le => exact le_rfl
  case free => exact hfree
  case before => exact fun i h1 h2 => absurd h1 (Nat.not_le.mpr h2)
  case values =>
    intro i
    rw [get_cons]
    by_cases hi : i = k
    · rw [if_pos hi, if_pos hi]
    · rw [if_neg hi, if_neg hi, hget i hi]
  case sorted => exact List.pairwise_cons.mpr ⟨hlater, hsorted⟩
  case keys =>
    intro e he
    rcases List.mem_cons.mp he with rfl | he
    · exact .inl rfl
    · exact .inr ⟨e, hsub e he, rfl⟩
  case used =>
    intro hl e he
    rcases List.mem_cons.mp he with rfl | he
    · exact trySchedule_used hfree
    · exact hl e (hsub e he)

theorem insertNew_taken (touch : Bool) {l : List (ℕ × WinCycle)} (cycle : ℕ) (hmask : mask ≠ 0)
    (hsorted : Ascending Prod.fst l) (hlater : ∀ e ∈ l, cycle < e.1) :
    ∃ l', insertNew touch mask cycle l = some (l', cycle, (get .empty l cycle).avail mask) ∧
      MapTaken touch mask l cycle l' cycle := by
  have hget : get .empty l cycle = .empty := get_of_not_key fun e he => (hlater e he).ne'
  have hfree : (get .empty l cycle).avail mask ≠ 0 := by
    rw [hget, avail_empty]
    exact hmask
  refine ⟨_, ?_, mapTaken_head hfree (fun _ _ => rfl) hlater hsorted fun _ he => he⟩
  unfold insertNew
  dsimp only
  rw [trySchedule_snd, hget, if_pos (hget ▸ hfree)]

/-- An earlier entry stays in front. -/
theorem MapTaken.cons {l l' : List (ℕ × WinCycle)} {cycle c k : ℕ} {wc : WinCycle}
    (h : MapTaken touch mask l cycle l' c) (hsorted : Ascending Prod.fst ((k, wc) :: l))
    (hk : k < cycle) : MapTaken touch mask ((k, wc) :: l) cycle ((k, wc) :: l') c := by
  have hle := h.le
  have hget : ∀ i, cycle ≤ i → get .empty ((k, wc) :: l) i = get .empty l i := by
    intro i hi
    rw [get_cons, if_neg (by omega)]
  constructor
  case le => exact hle
  case free =>
    rw [hget c hle]
    exact h.free
  case before =>
    intro i h1 h2
    rw [hget i h1]
    exact h.before i h1 h2
  case values =>
    intro i
    rw [hget c hle, get_cons, get_cons, h.values]
    by_cases hi : i = k
    · rw [if_pos hi, if_pos hi, if_neg (by omega)]
    · rw [if_neg hi, if_neg hi]
  case sorted =>
    refine List.pairwise_cons.mpr ⟨fun e he => ?_, h.sorted⟩
    obtain heq | ⟨e', he', heq⟩ := h.keys e he
    · dsimp only
      omega
    · have := (List.pairwise_cons.mp hsorted).1 e' he'
      dsimp only at this ⊢
      omega
  case keys =>
    intro e he
    rcases List.mem_cons.mp he with rfl | he
    · exact .inr ⟨(k, wc), List.mem_cons_self, rfl⟩
    · exact (h.keys e he).imp_right fun ⟨e', he', heq⟩ => ⟨e', List.mem_cons_of_mem _ he', heq⟩
  case used =>
    intro hl e he
    rcases List.mem_cons.mp he with rfl | he
    · exact hl _ List.mem_cons_self
    · exact h.used (fun e he => hl e (List.mem_cons_of_mem _ he)) e he

/-- The entry of the cycle has no port, and the loop goes on to the next cycle. -/
theorem MapTaken.full {l l' : List (ℕ × WinCycle)} {c k : ℕ} {wc : WinCycle}
    (h : MapTaken touch mask l (k + 1) l' c) (hsorted : Ascending Prod.fst ((k, wc) :: l))
    (hfull : wc.avail mask = 0) : MapTaken touch mask ((k, wc) :: l) k ((k, wc) :: l') c := by
  obtain ⟨hle, hfree, hbefore, hvalues, hasc, hkeys, hused⟩ :=
    h.cons hsorted (Nat.lt_succ_self k)
  refine ⟨by omega, hfree, fun i h1 h2 => ?_, hvalues, hasc, hkeys, hused⟩
  by_cases hi : i = k
  · rw [hi, get_cons, if_pos rfl, hfull]
  · exact hbefore i (by omega) h2

theorem tryMap_taken (touch : Bool) {l : List (ℕ × WinCycle)} (cycle : ℕ) (hmask : mask ≠ 0)
    (hsorted : Ascending Prod.fst l) :
    ∃ l' c, tryMap touch mask l cycle = some (l', c, (get .empty l c).avail mask) ∧
      MapTaken touch mask l cycle l' c := by
  induction l generalizing cycle with
  | nil =>
    obtain ⟨l', heq, htaken⟩ := insertNew_taken touch cycle hmask hsorted
      fun e he => absurd he List.not_mem_nil
    exact ⟨l', cycle, heq, htaken⟩
  | cons e l ih =>
    obtain ⟨k, wc⟩ := e
    obtain ⟨hfirst, hrest⟩ := List.pairwise_cons.mp hsorted
    unfold tryMap
    by_cases hlow : k < cycle
    · obtain ⟨l', c, heq, htaken⟩ := ih cycle hrest
      have hle := htaken.le
      refine ⟨(k, wc) :: l', c, ?_, htaken.cons hsorted hlow⟩
      rw [if_pos hlow, heq, get_cons, if_neg (by omega)]
      rfl
    · rw [if_neg hlow]
      by_cases hhere : k ≠ cycle
      · rw [if_pos hhere]
        obtain ⟨l', heq, htaken⟩ := insertNew_taken touch cycle hmask hsorted
          fun e he => by have := hsorted.head_le e he; dsimp only at this; omega
        exact ⟨l', cycle, heq, htaken⟩
      · obtain rfl : k = cycle := not_not.mp hhere
        have hget : get .empty ((k, wc) :: l) k = wc := by rw [get_cons, if_pos rfl]
        rw [if_neg hhere]
        dsimp only
        rw [trySchedule_snd]
        by_cases hfree : wc.avail mask ≠ 0
        · rw [if_pos hfree]
          have htaken := @mapTaken_head touch mask ((k, wc) :: l) l k (by rw [hget]; exact hfree)
            (fun i hi => by rw [get_cons, if_neg hi]) hfirst hrest
            fun e he => List.mem_cons_of_mem _ he
          rw [hget] at htaken
          exact ⟨_, k, by rw [hget], htaken⟩
        · rw [if_neg hfree]
          obtain ⟨l', c, heq, htaken⟩ := ih (k + 1) hrest
          have hle := htaken.le
          refine ⟨(k, wc) :: l', c, ?_, htaken.full hsorted (not_not.mp hfree)⟩
          rw [heq, get_cons, if_neg (by omega)]
          rfl

/-- What a request does: it takes a port in the first cycle from `start` on that has one. -/
structure Placed (H : ℕ) (touch : Bool) (mask : BitVec 8) (start : ℕ) (s s' : WindowStructure)
    (c : ℕ) : Prop where
  le : start ≤ c
  free : (s.entry H c).avail mask ≠ 0
  before : ∀ i, start ≤ i → i < c → (s.entry H i).avail mask = 0
  here : s'.entry H c = (trySchedule touch (s.entry H c) mask).1
  others : ∀ i, s.curCycle ≤ i → i ≠ c → s'.entry H i = s.entry H i
  curCycle : s'.curCycle = s.curCycle
  occupancy : s'.occupancy = s.occupancy

/-- The entries by their positions. -/
theorem entry_cur {i : ℕ} (hi : s.curPos + (i - s.curCycle) < H) :
    s.entry H i = s.curWin (s.curPos + (i - s.curCycle)) := if_pos hi

theorem entry_next {i : ℕ} (hi : H ≤ s.curPos + (i - s.curCycle))
    (hi' : s.curPos + (i - s.curCycle) < 2 * H) :
    s.entry H i = s.nextWin (s.curPos + (i - s.curCycle) - H) :=
  (if_neg (Nat.not_lt.mpr hi)).trans (if_pos hi')

theorem entry_far {i : ℕ} (hi : 2 * H ≤ s.curPos + (i - s.curCycle)) :
    s.entry H i = get .empty s.ubWin i := (if_neg (by omega)).trans (if_neg (by omega))

theorem Inv.placed_cur (h : s.Inv H) (touch : Bool) {start k : ℕ} (hge : s.curCycle ≤ start)
    (hle : s.curPos + (start - s.curCycle) ≤ k) (hlt : k < H) (hk : (s.curWin k).avail mask ≠ 0)
    (hbefore : ∀ i, s.curPos + (start - s.curCycle) ≤ i → i < k → (s.curWin i).avail mask = 0) :
    ∃ s' c, s' = { s with curWin := update s.curWin k (trySchedule touch (s.curWin k) mask).1 } ∧
      c = s.curCycle + (k - s.curPos) ∧ (s.entry H c).avail mask = (s.curWin k).avail mask ∧
      s'.Inv H ∧ Placed H touch mask start s s' c := by
  have hc : s.curPos + (s.curCycle + (k - s.curPos) - s.curCycle) = k := by omega
  have hentry : s.entry H (s.curCycle + (k - s.curPos)) = s.curWin k := by
    rw [entry_cur (by omega), hc]
  refine ⟨_, _, rfl, rfl, by rw [hentry], ⟨h.pos, fun pos hp => ?_, h.sorted, h.beyond,
    h.used⟩, ?_⟩
  · dsimp only at hp ⊢
    rw [update_of_ne (by omega)]
    exact h.past pos hp
  · constructor
    case le => omega
    case free => rw [hentry]; exact hk
    case before =>
      intro i h1 h2
      rw [entry_cur (by omega)]
      exact hbefore _ (by omega) (by omega)
    case here =>
      rw [hentry, entry_cur (by dsimp only; omega)]
      dsimp only
      rw [hc, update_self]
    case others =>
      intro i hi hne
      unfold entry
      dsimp only
      rw [update_of_ne (by omega)]
    case curCycle => rfl
    case occupancy => rfl

theorem Inv.placed_next (h : s.Inv H) (touch : Bool) {start k : ℕ} (hge : s.curCycle ≤ start)
    (hle : s.curPos + (start - s.curCycle) ≤ k + H) (hlt : k < H)
    (hk : (s.nextWin k).avail mask ≠ 0)
    (hzero : ∀ i, start ≤ i → s.curPos + (i - s.curCycle) < H → (s.entry H i).avail mask = 0)
    (hbefore : ∀ i, s.curPos + (start - s.curCycle) ≤ i + H → i < k →
      (s.nextWin i).avail mask = 0) :
    ∃ s' c, s' = { s with nextWin := update s.nextWin k (trySchedule touch (s.nextWin k) mask).1 } ∧
      c = s.curCycle + (k + H - s.curPos) ∧ (s.entry H c).avail mask = (s.nextWin k).avail mask ∧
      s'.Inv H ∧ Placed H touch mask start s s' c := by
  have hpos := h.pos
  have hc : s.curPos + (s.curCycle + (k + H - s.curPos) - s.curCycle) = k + H := by omega
  have hentry : s.entry H (s.curCycle + (k + H - s.curPos)) = s.nextWin k := by
    rw [entry_next (by omega) (by omega), hc, Nat.add_sub_cancel]
  refine ⟨_, _, rfl, rfl, by rw [hentry], ⟨h.pos, h.past, h.sorted, h.beyond, h.used⟩, ?_⟩
  constructor
  case le => omega
  case free => rw [hentry]; exact hk
  case before =>
    intro i h1 h2
    by_cases hi : s.curPos + (i - s.curCycle) < H
    · exact hzero i h1 hi
    · rw [entry_next (by omega) (by omega)]
      exact hbefore _ (by omega) (by omega)
  case here =>
    rw [hentry, entry_next (by dsimp only; omega) (by dsimp only; omega)]
    dsimp only
    rw [hc, Nat.add_sub_cancel, update_self]
  case others =>
    intro i hi hne
    unfold entry
    dsimp only
    split
    · rfl
    · split
      · rw [update_of_ne (by omega)]
      · rfl
  case curCycle => rfl
  case occupancy => rfl

theorem Inv.placed_far (h : s.Inv H) {start cycle c : ℕ} {l : List (ℕ × WinCycle)}
    (hge : s.curCycle ≤ start)
    (hcycle : s.curPos + (cycle - s.curCycle) = max (s.curPos + (start - s.curCycle)) (2 * H))
    (hzero : ∀ i, start ≤ i → s.curPos + (i - s.curCycle) < 2 * H →
      (s.entry H i).avail mask = 0)
    (htaken : MapTaken touch mask s.ubWin cycle l c) :
    (s.entry H c).avail mask = (get .empty s.ubWin c).avail mask ∧
      Inv H { s with ubWin := l } ∧ Placed H touch mask start s { s with ubWin := l } c := by
  have hpos := h.pos
  have hle := htaken.le
  have hentry : s.entry H c = get .empty s.ubWin c := entry_far (by omega)
  refine ⟨by rw [hentry], ⟨h.pos, h.past, htaken.sorted, fun e he => ?_,
    htaken.used h.used⟩, ?_⟩
  · obtain heq | ⟨e', he', heq⟩ := htaken.keys e he
    · dsimp only
      omega
    · have := h.beyond e' he'
      dsimp only
      omega
  · constructor
    case le => omega
    case free => rw [hentry]; exact htaken.free
    case before =>
      intro i h1 h2
      by_cases hi : s.curPos + (i - s.curCycle) < 2 * H
      · exact hzero i h1 hi
      · rw [entry_far (by omega)]
        exact htaken.before i (by omega) h2
    case here =>
      rw [hentry, entry_far (by dsimp only; omega)]
      dsimp only
      rw [htaken.values, if_pos rfl]
    case others =>
      intro i hi hne
      unfold entry
      dsimp only
      rw [htaken.values, if_neg hne]
    case curCycle => rfl
    case occupancy => rfl

theorem Inv.place (h : s.Inv H) (touch : Bool) (hH : H < 2 ^ 31) (hmask : mask ≠ 0) {schedCycle : ℕ}
    (hnear : schedCycle < s.curCycle + 2 ^ 31) :
    ∃ s' c, s.place H touch mask schedCycle = some (s', c, (s.entry H c).avail mask) ∧ s'.Inv H ∧
      Placed H touch mask (max schedCycle s.curCycle) s s' c := by
  have hpos := h.pos
  have hdelay : (s.curPos + if s.curCycle < schedCycle then (schedCycle - s.curCycle) % 2 ^ 32
      else 0) % 2 ^ 32 = s.curPos + (max schedCycle s.curCycle - s.curCycle) := by
    split <;> omega
  unfold WindowStructure.place
  dsimp only
  rw [hdelay]
  generalize hstart : max schedCycle s.curCycle = start
  have hge : s.curCycle ≤ start := by omega
  obtain ⟨k, hle, hlt, hk, hbefore, heq⟩ | ⟨hnone, heq⟩ := tryWindow_cases touch mask s.curWin
    (H - (s.curPos + (start - s.curCycle))) (s.curPos + (start - s.curCycle))
  · obtain ⟨s', c, rfl, rfl, havail, hinv, hplaced⟩ :=
      h.placed_cur touch hge hle (by omega) hk hbefore
    refine ⟨_, _, ?_, hinv, hplaced⟩
    rw [heq, havail]
  · have hzero : ∀ i, start ≤ i → s.curPos + (i - s.curCycle) < H →
        (s.entry H i).avail mask = 0 := by
      intro i h1 h2
      rw [entry_cur h2]
      exact hnone _ (by omega) (by omega)
    rw [heq]
    dsimp only
    generalize hp : max (s.curPos + (start - s.curCycle)) H - H = p
    obtain ⟨k, hle, hlt, hk, hbefore, heq'⟩ | ⟨hnone', heq'⟩ :=
      tryWindow_cases touch mask s.nextWin (H - p) p
    · obtain ⟨s', c, rfl, rfl, havail, hinv, hplaced⟩ :=
        h.placed_next touch hge (by omega) (by omega) hk hzero
          fun i h1 h2 => hbefore i (by omega) h2
      refine ⟨_, _, ?_, hinv, hplaced⟩
      rw [heq', havail]
    · have hzero' : ∀ i, start ≤ i → s.curPos + (i - s.curCycle) < 2 * H →
          (s.entry H i).avail mask = 0 := by
        intro i h1 h2
        by_cases hi : s.curPos + (i - s.curCycle) < H
        · exact hzero i h1 hi
        · rw [entry_next (by omega) h2]
          exact hnone' _ (by omega) (by omega)
      obtain ⟨l, c, htry, htaken⟩ := tryMap_taken touch
        (s.curCycle + (max p H + H - s.curPos)) hmask h.sorted
      obtain ⟨havail, hinv, hplaced⟩ := h.placed_far hge (by omega) hzero' htaken
      refine ⟨_, c, ?_, hinv, hplaced⟩
      rw [heq', havail]
      dsimp only
      rw [htry]
      rfl

end WindowStructure

end Doppelganger.Core
