import Doppelganger.Dpg.History

/-! The lookup that `Cache::finishInvalidate` makes.  It is to find a line and change nothing, but
it re-maps the tag when the map of the line has changed, and has no request to evict with. -/

namespace Doppelganger.Dpg

open Function Lib

/-- `lookup(lineAddr, nullptr, false, nullptr, 0)`: an eviction would go through
the null pointers. -/
def invalidateLookup (cfg : Config) (rank : RankCands cfg.assoc) (lineAddr : Address) (map : Int32)
    (s : DpgArray) : Option (Option Nat × DpgArray) :=
  (lookup cfg rank lineAddr map s).filter fun r => r.2.evictions = s.evictions

/-- Every tag has the address that it had, is as occupied as it was, and is found under the same
address. -/
structure SameTags (cfg : Config) (s s' : DpgArray) : Prop where
  addr : ∀ t, s'.addr t = s.addr t
  resident : ∀ t, (s'.dataId t).isSome = (s.dataId t).isSome
  found : ∀ lineAddr, findTag cfg lineAddr s' = findTag cfg lineAddr s

/-- Tag `t` can take the map without an eviction: a line of the set has no other sharer, or another
tag is on a line with the map. -/
def Room (cfg : Config) (t : Nat) (map : Int32) (s : DpgArray) : Prop :=
  (∃ d ∈ cfg.dataSet map, ∀ u, s.dataId u = some d → u = t) ∨
    ∃ u d, u ≠ t ∧ s.dataId u = some d ∧ s.mapValue d = map

section

variable {cfg : Config} {rank : RankCands cfg.assoc} {s s1 s' : DpgArray} {t d : Nat}
  {map : Int32} {a : Address}

theorem SameTags.of_tags (haddr : ∀ u, s'.addr u = s.addr u)
    (hres : ∀ u, (s'.dataId u).isSome = (s.dataId u).isSome) : SameTags cfg s s' := by
  refine ⟨haddr, hres, fun lineAddr => ?_⟩
  unfold findTag
  simp only [haddr, hres]

/-- After the tag is unlinked, a victim is needed exactly when there is no room for it. -/
theorem victim_iff (rank : RankCands cfg.assoc) (h : Wf cfg s) (ht : s.dataId t = some d)
    (h1 : removeTag t s = some s1) :
    (dataVictim cfg rank s1 map).isSome ↔ ¬Room cfg t map s := by
  obtain ⟨s2, h2, ⟨⟨L, hL⟩, -, hk⟩, -, hid, -, hmap⟩ := removeTag_wf h ht
  obtain rfl : s2 = s1 := Option.some.inj (h2.symm.trans h1)
  have hhead : ∀ e, (s2.tagHeadId e).isSome ↔ ∃ u, u ≠ t ∧ s.dataId u = some e := by
    intro e
    rw [hL.isSome_head]
    constructor
    · rintro ⟨u, hu⟩
      rw [hid] at hu
      obtain ⟨hut, hu⟩ := Option.ite_none_left_eq_some.mp hu
      exact ⟨u, hut, hu⟩
    · rintro ⟨u, hut, hu⟩
      exact ⟨u, by rw [hid, if_neg hut, hu]⟩
  have hnone : lookupData cfg map s2 = none ↔
      ∀ u e, u ≠ t → s.dataId u = some e → s.mapValue e ≠ map := by
    rw [lookupData_none hL hk]
    constructor
    · intro hall u e hut hu
      have hu2 : s2.dataId u = some e := by rw [hid, if_neg hut, hu]
      rw [← hmap u e hu2]
      exact hall u e hu2
    · intro hall u e hu2
      rw [hmap u e hu2]
      rw [hid] at hu2
      obtain ⟨hut, hu⟩ := Option.ite_none_left_eq_some.mp hu2
      exact hall u e hut hu
  have hvictim : (dataVictim cfg rank s2 map).isSome ↔
      lookupData cfg map s2 = none ∧ ∀ e ∈ cfg.dataSet map, (s2.tagHeadId e).isSome := by
    unfold dataVictim
    split
    case isTrue hfull => simpa using hfull
    case isFalse hfree => simpa using hfree
  rw [hvictim, hnone, Room, not_or]
  simp only [hhead]
  push Not
  exact ⟨fun ⟨hl, hd⟩ => ⟨fun e he => (hd e he).imp fun u hu => ⟨hu.2, hu.1⟩, hl⟩,
    fun ⟨hd, hl⟩ => ⟨hl, fun e he => (hd e he).imp fun u hu => ⟨hu.2, hu.1⟩⟩⟩

/-- An invalidation whose line has changed keeps the tags only when the address that it clears is
the cleared one already, and when there is room for the new map. -/
theorem invalidate_changed (h : Wf cfg s) (ht : findTag cfg a s = some t) (hd : s.dataId t = some d)
    (hm : map ≠ s.mapValue d) :
    (∃ s', invalidateLookup cfg rank a map s = some (some (t + cfg.numLines), s') ∧
      SameTags cfg s s') ↔ a = -1 ∧ Room cfg t map s := by
  obtain ⟨s1, d', s2, E, h1, h2, hp, hw, -, htE, hiff⟩ := lookup_remap rank h ht hd hm
  obtain ⟨-, haddr, -⟩ := findTag_some ht
  have hE : E = [] ↔ Room cfg t map s := by
    rw [← not_iff_not, ← victim_iff rank h hd h1]
    constructor
    · intro hne
      obtain ⟨u, hu⟩ := List.exists_mem_of_ne_nil E hne
      obtain ⟨v, hv, -⟩ := (hiff u).mp hu
      rw [hv]
      rfl
    · intro hsome
      obtain ⟨v, hv⟩ := Option.isSome_iff_exists.mp hsome
      obtain ⟨s2, h1', ⟨⟨L, hL⟩, -, -⟩, -⟩ := removeTag_wf h hd
      obtain rfl : s2 = s1 := Option.some.inj (h1'.symm.trans h1)
      have hlive : (s2.tagHeadId v).isSome := by
        have hvictim := hv
        unfold dataVictim at hvictim
        obtain ⟨hfull, hrank⟩ := Option.ite_none_right_eq_some.mp hvictim
        obtain rfl := Option.some.inj hrank
        exact hfull.2 _ (cfg.mem_dataSet.mpr (rank.data_mem _))
      obtain ⟨u, hu⟩ := (hL.isSome_head v).mp hlive
      exact List.ne_nil_of_mem ((hiff u).mpr ⟨v, hv, hu⟩)
  rw [← hE]
  constructor
  · rintro ⟨s', hl, hsame⟩
    obtain ⟨hl, hev⟩ := Option.filter_eq_some_iff.mp hl
    rw [h2] at hl
    obtain ⟨-, rfl⟩ := Prod.mk.inj (Option.some.inj hl)
    have hkept := hsame.addr t
    rw [hp.addr, if_pos rfl, haddr] at hkept
    refine ⟨hkept.symm, ?_⟩
    rw [decide_eq_true_eq, hp.evictions] at hev
    simpa using hev
  · rintro ⟨ha, rfl⟩
    refine ⟨s2, Option.filter_eq_some_iff.mpr ⟨h2, ?_⟩, SameTags.of_tags (fun u => ?_) fun u => ?_⟩
    · rw [decide_eq_true_eq, hp.evictions]
      exact List.append_nil _
    · rw [hp.addr]
      split
      case isTrue hut => rw [hut, haddr, ha]
      case isFalse => rw [if_neg List.not_mem_nil]
    · rw [hp.dataId]
      split
      case isTrue hut => rw [hut, hd]
                         rfl
      case isFalse => rw [if_neg List.not_mem_nil]

/-- In every reachable state, the lookup of an invalidation finds its line, evicts nothing and keeps
the tags exactly when the line still has the map of its data line, or has the address that
re-mapping leaves and room for the new map. -/
theorem invalidation_keeps_tags (cfg : Config) (ops : List (Op cfg.assoc)) :
    ∃ h, run (History.step cfg) ops History.start = some h ∧
      ∀ rank a map t d, findTag cfg a h.array = some t → h.array.dataId t = some d →
        ((∃ s', invalidateLookup cfg rank a map h.array = some (some (t + cfg.numLines), s') ∧
          SameTags cfg h.array s') ↔
          map = h.array.mapValue d ∨ a = -1 ∧ Room cfg t map h.array) := by
  obtain ⟨h, hrun, hw, -⟩ := run_wf ops
  refine ⟨h, hrun, fun rank a map t d ht hd => ?_⟩
  by_cases hm : map = h.array.mapValue d
  · have hsame : lookup cfg rank a map h.array = some (some (t + cfg.numLines), h.array) :=
      lookup_same hw ht hd hm.symm
    refine ⟨fun _ => .inl hm, fun _ => ⟨h.array, Option.filter_eq_some_iff.mpr ⟨hsame, ?_⟩,
      SameTags.of_tags (fun _ => rfl) fun _ => rfl⟩⟩
    rw [decide_eq_true_eq]
  · rw [invalidate_changed hw ht hd hm]
    exact ⟨.inr, fun hroom => hroom.resolve_left hm⟩

/-- Lines 0 and 1 are on the only data line, with the map 5.  When a store has changed the map of
line 0, the lookup of its invalidation evicts line 1 through the null pointers.  When line 1 is not
there, the lookup clears the address of line 0. -/
theorem invalidation_changes_tags :
    (∃ h, run (History.step tiny) [.insert tinyRank 0 5, .insert tinyRank 1 5] History.start =
      some h ∧
      findTag tiny 0 h.array = some 0 ∧ invalidateLookup tiny tinyRank 0 6 h.array = none) ∧
    ∃ h s', run (History.step tiny) [.insert tinyRank 0 5] History.start = some h ∧
      findTag tiny 0 h.array = some 0 ∧
      invalidateLookup tiny tinyRank 0 6 h.array = some (some 2, s') ∧
      h.array.addr 0 = 0 ∧ s'.addr 0 = -1 ∧ findTag tiny 0 s' = none :=
  ⟨⟨_, rfl, rfl, rfl⟩, _, _, rfl, rfl, rfl, rfl, rfl, rfl⟩

end

end Doppelganger.Dpg
