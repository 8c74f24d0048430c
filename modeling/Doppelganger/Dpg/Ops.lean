import Doppelganger.Dpg.Keyed

/-! The operations of `DPG_Array` on a well-formed array: what `lookup` does on a miss, on a hit
whose map is unchanged and on a hit that re-maps the tag, and what an insertion does. -/

namespace Doppelganger.Dpg

open Function Lib

/-- The tag on which a lookup of the address hits. -/
def findTag (cfg : Config) (lineAddr : Address) (s : DpgArray) : Option Nat :=
  (cfg.tagSet lineAddr).find? fun t => s.addr t == lineAddr && (s.dataId t).isSome

section

variable {cfg : Config} {rank : RankCands cfg.assoc} {s s' : DpgArray} {t d : Nat}
  {map : Int32} {a : Address}

theorem findTag_some (ht : findTag cfg a s = some t) :
    t ∈ cfg.tagSet a ∧ s.addr t = a ∧ ∃ d, s.dataId t = some d := by
  have hp := List.find?_some ht
  simp only [Bool.and_eq_true, beq_iff_eq] at hp
  exact ⟨List.mem_of_find?_eq_some ht, hp.1, Option.isSome_iff_exists.mp hp.2⟩

theorem findTag_none :
    findTag cfg a s = none ↔ ∀ t ∈ cfg.tagSet a, s.addr t = a → s.dataId t = none := by
  simp [findTag, List.find?_eq_none]

/-- Unlinking a tag frees it, and changes no other tag and no live line. -/
theorem removeTag_wf (h : Wf cfg s) (ht : s.dataId t = some d) :
    ∃ s1, removeTag t s = some s1 ∧ Wf cfg s1 ∧ s1.evictions = s.evictions ∧
      (∀ u, s1.dataId u = if u = t then none else s.dataId u) ∧
      (∀ u, s1.addr u = if u = t then -1 else s.addr u) ∧
      ∀ u e, s1.dataId u = some e → s1.mapValue e = s.mapValue e := by
  obtain ⟨L, hL⟩ := h.lists
  obtain ⟨s1, x, y, h1, -, hr, hL1⟩ := hL.removeTag ht
  have hmap : ∀ u e, s1.dataId u = some e → s1.mapValue e = s.mapValue e := by
    intro u e hu
    rcases hr.mapValue e with hm | hdead
    · exact hm
    · have := hL1.live hu
      simp [hdead] at this
  have hold : ∀ u e, s1.dataId u = some e → s.dataId u = some e := by
    intro u e hu
    rw [hr.dataId] at hu
    by_cases hut : u = t <;> simp [hut] at hu
    exact hu
  refine ⟨s1, h1, ⟨⟨_, hL1⟩, fun u e hu => h.inRange u e (hold u e hu), ?_, ?_⟩,
    hr.evictions, hr.dataId, hr.addr, hmap⟩
  · intro u e hu
    rw [hmap u e hu]
    exact h.keyed.key u e (hold u e hu)
  · intro u v e f hu hv hm
    rw [hmap u e hu, hmap v f hv] at hm
    exact h.keyed.unique u v e f (hold u e hu) (hold v f hv) hm

/-- When the map has changed, the tag moves to another data line and loses its address. -/
theorem refreshMap_changed (rank : RankCands cfg.assoc) (h : Wf cfg s) (ht : s.dataId t = some d)
    (hm : map ≠ s.mapValue d) :
    ∃ s1 d' s' E, removeTag t s = some s1 ∧ refreshMap cfg rank t map s = some s' ∧
      Placed cfg t d' map (-1) E s s' ∧ Wf cfg s' ∧ E.Nodup ∧ t ∉ E ∧
      ∀ u, u ∈ E ↔ ∃ v, dataVictim cfg rank s1 map = some v ∧ s1.dataId u = some v := by
  obtain ⟨s1, h1, hw1, hev, hid, haddr, hmap⟩ := removeTag_wf h ht
  obtain ⟨d', s', E, h2, hp, hw2, hnd, hiff⟩ :=
    joinData_eq rank map hw1 (h.inRange t d ht).1 (show s1.dataId t = none by rw [hid, if_pos rfl])
  have htE : t ∉ E := by
    intro ht
    obtain ⟨v, -, hv⟩ := (hiff t).mp ht
    simp [hid] at hv
  refine ⟨s1, d', s', E, h1, ?_, ⟨?_, ?_, hp.map_eq, ?_, ?_⟩, hw2, hnd, htE, hiff⟩
  · rw [refreshMap, ht, Option.bind_some, if_pos hm, h1, Option.bind_some]
    exact h2
  · intro u
    rw [hp.dataId, hid]
    by_cases hut : u = t <;> simp [hut]
  · intro u
    rw [hp.addr, haddr, haddr, if_pos rfl]
    by_cases hut : u = t <;> simp [hut]
  · intro u e hut hu
    exact (hp.mapValue u e hut hu).trans (hmap u e (hp.occupied hu hut).2)
  · rw [hp.evictions, hev]
    congr 1
    refine List.map_congr_left fun u hu => ?_
    rw [evictionOf, evictionOf, haddr, if_neg fun hut : u = t => htE (hut ▸ hu)]

theorem refreshMap_same (ht : s.dataId t = some d) (hm : s.mapValue d = map) :
    refreshMap cfg rank t map s = some s := by
  rw [refreshMap, ht, Option.bind_some, if_neg (by simp [hm])]

/-- A re-mapped tag is on some data line again, so the lookup stops there. -/
theorem lookupLoop_eq (h : Wf cfg s) : ∀ l : List Nat,
    lookupLoop cfg rank a map l s =
      match l.find? fun t => s.addr t == a && (s.dataId t).isSome with
      | none => some (none, s)
      | some t => (refreshMap cfg rank t map s).map fun s' => (some (t + cfg.numLines), s')
  | [] => rfl
  | t :: l => by
    rw [lookupLoop]
    by_cases hit : s.addr t = a ∧ (s.dataId t).isSome
    · obtain ⟨d, hd⟩ := Option.isSome_iff_exists.mp hit.2
      rw [if_pos hit, List.find?_cons_of_pos (by simp [hit])]
      by_cases hm : map ≠ s.mapValue d
      · obtain ⟨-, d', s', E, -, h2, hp, -⟩ := refreshMap_changed rank h hd hm
        simp [h2, hp.self]
      · simp [refreshMap_same hd (not_ne_iff.mp hm).symm, hd]
    · rw [if_neg hit, List.find?_cons_of_neg (by simpa using hit), lookupLoop_eq h l]

/-- `lookup` refreshes the map of the tag that it finds. -/
theorem lookup_eq (h : Wf cfg s) :
    lookup cfg rank a map s =
      match findTag cfg a s with
      | none => some (none, s)
      | some t => (refreshMap cfg rank t map s).map fun s' => (some (t + cfg.numLines), s') :=
  lookupLoop_eq h (cfg.tagSet a)

theorem lookup_miss (h : Wf cfg s) (ht : findTag cfg a s = none) :
    lookup cfg rank a map s = some (none, s) := by
  rw [lookup_eq h, ht]

theorem lookup_same (h : Wf cfg s) (ht : findTag cfg a s = some t) (hd : s.dataId t = some d)
    (hm : s.mapValue d = map) :
    lookup cfg rank a map s = some (some (t + cfg.numLines), s) := by
  rw [lookup_eq h, ht]
  simp [refreshMap_same hd hm]

theorem lookup_remap (rank : RankCands cfg.assoc) (h : Wf cfg s) (ht : findTag cfg a s = some t)
    (hd : s.dataId t = some d) (hm : map ≠ s.mapValue d) :
    ∃ s1 d' s' E, removeTag t s = some s1 ∧
      lookup cfg rank a map s = some (some (t + cfg.numLines), s') ∧
      Placed cfg t d' map (-1) E s s' ∧ Wf cfg s' ∧ E.Nodup ∧ t ∉ E ∧
      ∀ u, u ∈ E ↔ ∃ v, dataVictim cfg rank s1 map = some v ∧ s1.dataId u = some v := by
  obtain ⟨s1, d', s', E, h1, h2, hp⟩ := refreshMap_changed rank h hd hm
  refine ⟨s1, d', s', E, h1, ?_, hp⟩
  rw [lookup_eq h, ht]
  simp [h2]

/-- A lookup of the address of an occupied tag returns the same line, whatever the map now is. -/
theorem lookup_again (h : Wf cfg s) (ht : findTag cfg a s = some t) (rank : RankCands cfg.assoc)
    (map : Int32) : ∃ s', lookup cfg rank a map s = some (some (t + cfg.numLines), s') := by
  obtain ⟨-, -, d, hd⟩ := findTag_some ht
  by_cases hm : map = s.mapValue d
  · exact ⟨s, lookup_same h ht hd hm.symm⟩
  · obtain ⟨-, -, s', -, -, h2, -⟩ := lookup_remap rank h ht hd hm
    exact ⟨s', h2⟩

/-- `preinsert` evicts the tag victim and the sharers of the data victim, and puts the tag that it
frees on a data line with the map. -/
theorem preinsert_eq (rank : RankCands cfg.assoc) (a : Address) (map : Int32) (h : Wf cfg s) :
    ∃ t s1 d x s' F, getFreeTag cfg rank a s = some (t, s1) ∧
      preinsert cfg rank a map s = some (t + cfg.numLines, s') ∧ t ∈ cfg.tagSet a ∧
      Placed cfg t d map x ((tagVictim cfg rank s a).toList ++ F) s s' ∧ Wf cfg s' ∧
      ((tagVictim cfg rank s a).toList ++ F).Nodup ∧ t ∉ F ∧
      (∀ u, tagVictim cfg rank s a = some u → u = t ∧ (s.dataId u).isSome) ∧
      ∀ u, u ∈ F ↔ ∃ v, dataVictim cfg rank s1 map = some v ∧ s1.dataId u = some v := by
  obtain ⟨L, hL⟩ := h.lists
  obtain ⟨t, s1, h1, hmem, hfree, hE, ⟨L1, hL1⟩, hvic⟩ := getFreeTag_eq rank a hL
  have hw1 : Wf cfg s1 := ⟨⟨L1, hL1⟩, hE.inRange h.inRange, hE.keyed h.keyed⟩
  obtain ⟨d, s2, F, h2, hp, hw2, hnd, hiff⟩ :=
    joinData_eq rank map hw1 (cfg.tagSet_lt hmem) hfree
  have hvt : ∀ u ∈ (tagVictim cfg rank s a).toList, u = t := by
    intro u hu
    exact (hvic u (by simpa using hu)).1
  have htF : t ∉ F := by
    intro hm
    obtain ⟨v, -, hv⟩ := (hiff t).mp hm
    simp [hfree] at hv
  have hEF : ∀ u ∈ F, u ∉ (tagVictim cfg rank s a).toList := fun u hu hm =>
    htF (hvt u hm ▸ hu)
  refine ⟨t, s1, d, s1.addr t, s2, F, h1, by simp [preinsert, h1, h2], hmem, hE.placed hp hEF, hw2,
    ?_, htF, hvic, hiff⟩
  refine List.nodup_append.mpr ⟨?_, hnd, fun u hu v hv huv => hEF v hv (huv ▸ hu)⟩
  cases tagVictim cfg rank s a <;> simp

theorem postinsert_wf (h : Wf cfg s) (id : Nat) : Wf cfg (postinsert cfg a id s) := by
  obtain ⟨L, hL⟩ := h.lists
  exact ⟨⟨L, hL.linked, hL.head, hL.nodup, hL.mem, hL.free⟩, h.inRange,
    h.keyed.key, h.keyed.unique⟩

theorem postinsert_placed {x : Address} {E : List Nat} (h : Placed cfg t d map x E s s') :
    Placed cfg t d map a E s (postinsert cfg a (t + cfg.numLines) s') := by
  refine ⟨h.dataId, fun u => ?_, h.map_eq, h.mapValue, h.evictions⟩
  have haddr : (postinsert cfg a (t + cfg.numLines) s').addr u =
      if u = t then a else s'.addr u := by
    simp [postinsert, update_apply]
  rw [haddr, h.addr]
  by_cases hut : u = t <;> simp [hut]

/-- An insertion places the address in a tag that is free, or that it evicts first. -/
theorem insert_eq (rank : RankCands cfg.assoc) (a : Address) (map : Int32) (h : Wf cfg s) :
    ∃ t d s' E, insert cfg rank a map s = some (t + cfg.numLines, s') ∧ t ∈ cfg.tagSet a ∧
      Placed cfg t d map a E s s' ∧ Wf cfg s' ∧ ∀ e, s.dataId t = some e → t ∈ E := by
  obtain ⟨L, hL⟩ := h.lists
  obtain ⟨t, s1, d, x, s', F, h1, h2, hmem, hp, hw, -⟩ := preinsert_eq rank a map h
  obtain ⟨t', s2, h1', -, hfree, hE, -⟩ := getFreeTag_eq rank a hL
  obtain ⟨rfl, rfl⟩ : t = t' ∧ s1 = s2 := by simpa [h1] using h1'
  refine ⟨t, d, postinsert cfg a (t + cfg.numLines) s', _, by rw [insert, h2]; rfl, hmem,
    postinsert_placed hp, postinsert_wf hw _, fun e he => List.mem_append_left _ ?_⟩
  by_contra hmem
  rw [hE.dataId, if_neg hmem, he] at hfree
  simp at hfree

theorem insert_wf {id : Nat} (h : Wf cfg s) (hi : insert cfg rank a map s = some (id, s')) :
    Wf cfg s' := by
  obtain ⟨t, d, s1, E, h1, -, -, hw, -⟩ := insert_eq rank a map h
  obtain ⟨-, rfl⟩ : id = t + cfg.numLines ∧ s' = s1 := by simpa [hi] using h1
  exact hw

end

/-- Two tag lines of one way each, over one data line. -/
def tiny : Config := ⟨2, 1, id, by decide, by decide⟩

def tinyRank : RankCands tiny.assoc :=
  ⟨id, id, fun _ => ⟨le_rfl, Nat.lt_succ_self _⟩, fun _ => ⟨le_rfl, Nat.lt_succ_self _⟩⟩

/-- The tiny array after an insertion of address 0 with the map 5. -/
def tinyFull : DpgArray := postinsert tiny 0 2 (claimData 0 0 5 init)

theorem tinyFull_wf : Wf tiny tinyFull :=
  insert_wf (init_wf tiny) (show insert tiny tinyRank 0 5 init = some (2, tinyFull) from rfl)

end Doppelganger.Dpg
