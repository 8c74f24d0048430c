import Doppelganger.Core.WindowEntries

/-! What the operations of `WindowStructure` that succeed do to the clock of the core. -/

namespace Doppelganger.Core.WindowStructure

open Lib Function

variable {H WSZ : ℕ} {s s' : WindowStructure} {mask : BitVec 8} {c request n : ℕ}

/-- The clock of `s'` is not earlier, and its position is in the window. -/
structure Later (H : ℕ) (s s' : WindowStructure) : Prop where
  pos : s'.curPos < H
  le : s.curCycle ≤ s'.curCycle

theorem Later.trans {t : WindowStructure} (h : Later H s s') (h' : Later H s' t) : Later H s t :=
  ⟨h'.pos, h.le.trans h'.le⟩

theorem advancePos_clock (hpos : s.curPos < H) (h : s.advancePos H = some s') :
    s'.curCycle = s.curCycle + 1 ∧ s'.curPos < H := by
  unfold advancePos at h
  dsimp only at h
  split at h
  case isTrue hlast =>
    obtain ⟨_, _, rfl⟩ := Option.map_eq_some_iff.mp h
    exact ⟨rfl, Nat.zero_lt_of_lt hpos⟩
  case isFalse hlast =>
    obtain rfl := Option.some.inj h
    exact ⟨rfl, show s.curPos + 1 < H by omega⟩

theorem advancePos_later (hpos : s.curPos < H) (h : s.advancePos H = some s') : Later H s s' :=
  have hclock := advancePos_clock hpos h
  ⟨hclock.2, by omega⟩

theorem insertNew_eq {touch : Bool} {rest l : List (ℕ × WinCycle)} {avail : BitVec 8}
    (h : insertNew touch mask request rest = some (l, c, avail)) : c = request := by
  unfold insertNew at h
  dsimp only at h
  split at h
  case isTrue => exact (Prod.mk.inj (Prod.mk.inj (Option.some.inj h)).2).1.symm
  case isFalse => exact nomatch h

/-- A reservation in the map is not before the request. -/
theorem tryMap_le {touch : Bool} {l l' : List (ℕ × WinCycle)} {avail : BitVec 8}
    (h : tryMap touch mask l request = some (l', c, avail)) : request ≤ c := by
  induction l generalizing request l' with
  | nil => exact (insertNew_eq h).ge
  | cons e l ih =>
    unfold tryMap at h
    split at h
    case isTrue =>
      obtain ⟨⟨l1, r⟩, hrest, heq⟩ := Option.map_eq_some_iff.mp h
      obtain ⟨-, rfl⟩ := Prod.mk.inj heq
      exact ih hrest
    case isFalse =>
      split at h
      case isTrue => exact (insertNew_eq h).ge
      case isFalse =>
        dsimp only at h
        split at h
        case isTrue => exact (Prod.mk.inj (Prod.mk.inj (Option.some.inj h)).2).1.le
        case isFalse =>
          obtain ⟨⟨l1, r⟩, hrest, heq⟩ := Option.map_eq_some_iff.mp h
          obtain ⟨-, rfl⟩ := Prod.mk.inj heq
          exact (Nat.le_succ _).trans (ih hrest)

/-- A reservation leaves the clock, and is not before the request when that is near. -/
theorem place_clock {touch : Bool} {avail : BitVec 8} (hpos : s.curPos < H) (hH : H < 2 ^ 31)
    (h : s.place H touch mask request = some (s', c, avail)) :
    s'.curCycle = s.curCycle ∧ s'.curPos = s.curPos ∧
      (request < s.curCycle + 2 ^ 31 → s.curCycle ≤ c ∧ request ≤ c) := by
  unfold place at h
  dsimp only at h
  have hdelay (hnear : request < s.curCycle + 2 ^ 31) :
      (s.curPos + if s.curCycle < request then (request - s.curCycle) % 2 ^ 32 else 0) % 2 ^ 32 =
        s.curPos + (max request s.curCycle - s.curCycle) := by
    split <;> omega
  generalize (s.curPos + if s.curCycle < request then (request - s.curCycle) % 2 ^ 32 else 0) %
    2 ^ 32 = curWinPos at h hdelay
  obtain ⟨k, hle, -, -, -, heq⟩ | ⟨-, heq⟩ :=
    tryWindow_cases touch mask s.curWin (H - curWinPos) curWinPos
  · rw [heq] at h
    simp only [Option.some.injEq, Prod.mk.injEq] at h
    obtain ⟨rfl, rfl, -⟩ := h
    refine ⟨rfl, rfl, fun hnear => ?_⟩
    have := hdelay hnear
    omega
  rw [heq] at h
  obtain ⟨k, hle, -, -, -, heq⟩ | ⟨-, heq⟩ :=
    tryWindow_cases touch mask s.nextWin (H - (max curWinPos H - H)) (max curWinPos H - H)
  · rw [heq] at h
    simp only [Option.some.injEq, Prod.mk.injEq] at h
    obtain ⟨rfl, rfl, -⟩ := h
    refine ⟨rfl, rfl, fun hnear => ?_⟩
    have := hdelay hnear
    omega
  · rw [heq] at h
    obtain ⟨⟨l, r⟩, hmap, heq⟩ := Option.map_eq_some_iff.mp h
    obtain ⟨rfl, rfl⟩ := Prod.mk.inj heq
    have hle := tryMap_le hmap
    refine ⟨rfl, rfl, fun hnear => ?_⟩
    have := hdelay hnear
    omega

theorem drain_later (hpos : s.curPos < H) (h : drain H WSZ n s = some s') : Later H s s' := by
  induction n generalizing s with
  | zero =>
    unfold drain at h
    split at h
    case isTrue => exact nomatch h
    case isFalse =>
      obtain rfl := Option.some.inj h
      exact ⟨hpos, le_rfl⟩
  | succ n ih =>
    unfold drain at h
    split at h
    case isTrue =>
      obtain ⟨s1, h1, hrest⟩ := Option.bind_eq_some_iff.mp h
      have hlater := advancePos_later hpos h1
      exact hlater.trans (ih hlater.pos hrest)
    case isFalse =>
      obtain rfl := Option.some.inj h
      exact ⟨hpos, le_rfl⟩

theorem scheduleInternal_clock {touch record : Bool} (hpos : s.curPos < H) (hH : H < 2 ^ 31)
    (h : s.scheduleInternal H WSZ touch record mask request = some (s', c)) :
    Later H s s' ∧ (request < s.curCycle + 2 ^ 31 → s'.curCycle ≤ c ∧ request ≤ c) := by
  obtain ⟨s1, hdrain, hrest⟩ := Option.bind_eq_some_iff.mp h
  obtain ⟨⟨s2, c2, avail⟩, hplace, heq⟩ := Option.map_eq_some_iff.mp hrest
  obtain ⟨rfl, rfl⟩ := Prod.mk.inj heq
  have hlater : Later H s s1 := by
    split at hdrain
    case isTrue => exact drain_later hpos hdrain
    case isFalse =>
      obtain rfl := Option.some.inj hdrain
      exact ⟨hpos, le_rfl⟩
  obtain ⟨hcycle, hpos', hnear⟩ := place_clock hlater.pos hH hplace
  have hle := hlater.le
  have hlt := hlater.pos
  refine ⟨⟨?_, ?_⟩, fun hrequest => ?_⟩
  · change s2.curPos < H
    omega
  · change s.curCycle ≤ s2.curCycle
    omega
  · obtain ⟨h1, h2⟩ := hnear (by omega)
    exact ⟨by change s2.curCycle ≤ c2; omega, h2⟩

/-- The extra slots do not touch the occupancy, so that nothing is drained for them. -/
theorem scheduleSlots_clock (hpos : s.curPos < H) (hH : H < 2 ^ 31)
    (h : scheduleSlots H WSZ mask n request s = some s') :
    s'.curCycle = s.curCycle ∧ s'.curPos < H := by
  induction n generalizing s request with
  | zero =>
    obtain rfl := Option.some.inj h
    exact ⟨rfl, hpos⟩
  | succ n ih =>
    obtain ⟨⟨s1, c1⟩, h1, hrest⟩ := Option.bind_eq_some_iff.mp h
    obtain ⟨s2, hdrain, hslot⟩ := Option.bind_eq_some_iff.mp h1
    obtain rfl := Option.some.inj hdrain
    obtain ⟨⟨s3, c3, avail⟩, hplace, heq⟩ := Option.map_eq_some_iff.mp hslot
    obtain ⟨rfl, rfl⟩ := Prod.mk.inj heq
    obtain ⟨hcycle, hpos', -⟩ := place_clock hpos hH hplace
    obtain ⟨hcycle', hlt⟩ := ih (show s3.curPos < H by omega) hrest
    exact ⟨hcycle'.trans hcycle, hlt⟩

/-- A uop may move the clock, and is not scheduled before it nor before the request when that is
near. -/
theorem schedule_clock {extraSlots : ℕ} (hpos : s.curPos < H) (hH : H < 2 ^ 31)
    (h : s.schedule H WSZ request mask extraSlots = some (s', c)) :
    Later H s s' ∧ (request < s.curCycle + 2 ^ 31 → s'.curCycle ≤ c ∧ request ≤ c) := by
  obtain ⟨⟨s1, c1⟩, h1, hrest⟩ := Option.bind_eq_some_iff.mp h
  obtain ⟨s2, h2, hrest⟩ := Option.bind_eq_some_iff.mp hrest
  obtain ⟨hlater, hnear⟩ := scheduleInternal_clock hpos hH h1
  obtain ⟨hcycle, hlt⟩ := scheduleSlots_clock hlater.pos hH h2
  split at hrest
  case isTrue =>
    obtain ⟨rfl, rfl⟩ := Prod.mk.inj (Option.some.inj hrest)
    rw [hcycle]
    exact ⟨⟨hlt, hcycle ▸ hlater.le⟩, hnear⟩
  case isFalse => exact nomatch hrest

theorem drainTo_pos {target : ℕ} (hpos : s.curPos < H) (h : drainTo H target n s = some s') :
    s'.curPos < H := by
  induction n generalizing s with
  | zero =>
    obtain rfl := Option.some.inj h
    exact hpos
  | succ n ih =>
    unfold drainTo at h
    split at h
    case isTrue =>
      obtain ⟨s1, h1, hrest⟩ := Option.bind_eq_some_iff.mp h
      exact ih (advancePos_clock hpos h1).2 hrest
    case isFalse =>
      obtain rfl := Option.some.inj h
      exact hpos

theorem longAdvance_clock {target : ℕ} (hpos : s.curPos < H)
    (h : s.longAdvance H target = some s') : s'.curCycle = target ∧ s'.curPos < H := by
  unfold longAdvance at h
  split at h
  case isFalse => exact nomatch h
  obtain ⟨s1, h1, hrest⟩ := Option.bind_eq_some_iff.mp h
  have hlt := drainTo_pos hpos h1
  split at hrest
  case isTrue =>
    split at hrest
    case isTrue heq =>
      obtain rfl := Option.some.inj hrest
      exact ⟨heq, hlt⟩
    case isFalse => exact nomatch hrest
  case isFalse =>
    split at hrest
    case isTrue =>
      obtain rfl := Option.some.inj hrest
      exact ⟨rfl, hlt⟩
    case isFalse => exact nomatch hrest

end Doppelganger.Core.WindowStructure
