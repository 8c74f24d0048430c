import Doppelganger.Dpg.Lists
import Mathlib.Data.List.Perm.Subperm

/-! What an eviction from the Doppelganger array does.  `Evicts cfg E s s'` says that the tags of
`E` were handed to the coherence controller, in order and with the addresses that they stored, and
that nothing else left the array. -/

namespace Doppelganger.Dpg

open Function Lib

/-- Each occupied tag and its data line are inside the arrays. -/
def InRange (cfg : Config) (s : DpgArray) : Prop :=
  ∀ t d, s.dataId t = some d → t < cfg.numLines ∧ d < cfg.numLines / dataScale

/-- The call of `processEviction` for tag `t`. -/
def evictionOf (cfg : Config) (s : DpgArray) (t : Nat) : Eviction := ⟨s.addr t, t + cfg.numLines⟩

structure Evicts (cfg : Config) (E : List Nat) (s s' : DpgArray) : Prop where
  dataId : ∀ u, s'.dataId u = if u ∈ E then none else s.dataId u
  addr : ∀ u, s'.addr u = if u ∈ E then -1 else s.addr u
  mapValue : ∀ u d, s'.dataId u = some d → s'.mapValue d = s.mapValue d
  evictions : s'.evictions = s.evictions ++ E.map (evictionOf cfg s)

namespace Config

variable (cfg : Config)

theorem assoc_pos : 0 < cfg.assoc := by
  have h := isPow2_pos cfg.pow2_t
  rcases Nat.eq_zero_or_pos cfg.assoc with h0 | h0
  · simp [h0] at h
  · exact h0

theorem numLines_pos : 0 < cfg.numLines := by
  have h := isPow2_pos cfg.pow2_t
  rcases Nat.eq_zero_or_pos cfg.numLines with h0 | h0
  · simp [h0] at h
  · exact h0

theorem mem_tagSet {a : Address} {t : Nat} :
    t ∈ cfg.tagSet a ↔ cfg.firstT a ≤ t ∧ t < cfg.firstT a + cfg.assoc := by
  simp [tagSet, List.mem_range'_1]

theorem mem_dataSet {map : Int32} {d : Nat} :
    d ∈ cfg.dataSet map ↔ cfg.firstD map ≤ d ∧ d < cfg.firstD map + cfg.assoc := by
  simp [dataSet, List.mem_range'_1]

/-- A set that a mask of `n - 1` selects ends inside an array of `n * assoc` lines. -/
theorem set_end {n h assoc i : Nat} (hn : 0 < n) (hi : i < (h &&& (n - 1)) * assoc + assoc) :
    i < n * assoc := by
  have hset : (h &&& (n - 1)) + 1 ≤ n := by
    have := @Nat.and_le_right h (n - 1)
    omega
  calc i < ((h &&& (n - 1)) + 1) * assoc := by rw [Nat.add_mul, Nat.one_mul]; exact hi
    _ ≤ n * assoc := Nat.mul_le_mul_right assoc hset

theorem tagSet_lt {a : Address} {t : Nat} (ht : t ∈ cfg.tagSet a) : t < cfg.numLines := by
  have h := set_end (isPow2_pos cfg.pow2_t) ((cfg.mem_tagSet).mp ht).2
  exact lt_of_lt_of_le h (Nat.div_mul_le_self _ _)

theorem dataSet_lt {map : Int32} {d : Nat} (hd : d ∈ cfg.dataSet map) :
    d < cfg.numLines / dataScale := by
  have h := set_end (isPow2_pos cfg.pow2_d) ((cfg.mem_dataSet).mp hd).2
  have hle : cfg.numLines / cfg.assoc / dataScale * cfg.assoc ≤ cfg.numLines / dataScale := by
    rw [Nat.div_div_eq_div_mul, Nat.mul_comm cfg.assoc, ← Nat.div_div_eq_div_mul]
    exact Nat.div_mul_le_self _ _
  exact lt_of_lt_of_le h hle

end Config

section

variable {cfg : Config} {s s' s'' : DpgArray} {L : Nat → List Nat} {E F : List Nat} {t d : Nat}

namespace Evicts

theorem refl (cfg : Config) (s : DpgArray) : Evicts cfg [] s s := by
  constructor <;> simp

theorem trans (h : Evicts cfg E s s') (h' : Evicts cfg F s' s'') (hEF : ∀ u ∈ F, u ∉ E) :
    Evicts cfg (E ++ F) s s'' := by
  have hsame : F.map (evictionOf cfg s') = F.map (evictionOf cfg s) := by
    refine List.map_congr_left fun u hu => ?_
    rw [evictionOf, evictionOf, h.addr, if_neg (hEF u hu)]
  refine ⟨fun u => ?_, fun u => ?_, fun u d hu => ?_, ?_⟩
  · rw [h'.dataId, h.dataId]
    by_cases hF : u ∈ F <;> simp [hF]
  · rw [h'.addr, h.addr]
    by_cases hF : u ∈ F <;> simp [hF]
  · have hu' : s'.dataId u = some d := by
      rw [h'.dataId] at hu
      split at hu
      · simp at hu
      · exact hu
    exact (h'.mapValue u d hu).trans (h.mapValue u d hu')
  · rw [h'.evictions, h.evictions, hsame, List.map_append, List.append_assoc]

theorem occupied (h : Evicts cfg E s s') (hu : s'.dataId t = some d) :
    t ∉ E ∧ s.dataId t = some d := by
  rw [h.dataId] at hu
  by_cases hE : t ∈ E
  · simp [hE] at hu
  · exact ⟨hE, by simpa [hE] using hu⟩

theorem inRange (h : Evicts cfg E s s') (hr : InRange cfg s) : InRange cfg s' :=
  fun u e hu => hr u e (h.occupied hu).2

end Evicts

theorem evictTag_eq (h : Lists s L) {a b : List Nat} (hL : L d = a ++ t :: b)
    (ht : t < cfg.numLines) :
    ∃ s', evictTag cfg (some t) s = some s' ∧ Evicts cfg [t] s s' ∧
      Lists s' (update L d (a ++ b)) := by
  have hsent : Lists { s with
      evictions := s.evictions ++ [⟨s.addr t, t + cfg.numLines⟩] } L :=
    ⟨h.linked, h.head, h.nodup, h.mem, h.free⟩
  obtain ⟨s', hs', hr⟩ := hsent.removeTag_eq hL
  have hl' := hsent.removed hL hr
  refine ⟨s', ?_, ⟨?_, ?_, ?_, ?_⟩, hl'⟩
  · rw [evictTag, if_pos ht]
    exact hs'
  · simpa using hr.dataId
  · simpa using hr.addr
  · intro u e hu
    rcases hr.mapValue e with hm | hdead
    · exact hm
    · have hlive := hl'.live hu
      simp [hdead] at hlive
  · simpa [evictionOf] using hr.evictions

/-- The loop of `evict_data` takes the tags off the data line one by one, from the head on. -/
theorem evictLoop_eq : ∀ (l : List Nat) {fuel : Nat} {s : DpgArray} {L : Nat → List Nat},
    Lists s L → L d = l → (∀ t ∈ l, t < cfg.numLines) → 0 < fuel → l.length ≤ fuel →
    ∃ s', evictLoop cfg d fuel s = some s' ∧ Evicts cfg l s s' ∧ Lists s' (update L d [])
  | [], fuel + 1, s, L, h, hL, _, _, _ => by
    have hhead : s.tagHeadId d = none := by rw [h.head, hL]; rfl
    refine ⟨s, ?_, Evicts.refl cfg s, ?_⟩
    · simp [evictLoop, hhead, evictTag]
    · rw [← hL, update_eq_self]
      exact h
  | t :: l, fuel + 1, s, L, h, hL, hlt, _, hlen => by
    have hhead : s.tagHeadId d = some t := by rw [h.head, hL]; rfl
    obtain ⟨s1, h1, he1, hl1⟩ :=
      evictTag_eq h (show L d = [] ++ t :: l from hL) (hlt t (by simp))
    have hL1 : update L d ([] ++ l) d = l := by simp
    have hhead1 : s1.tagHeadId d = l.head? := by rw [hl1.head, hL1]
    rw [evictLoop, hhead, h1, Option.bind_some]
    cases l with
    | nil =>
      refine ⟨s1, ?_, he1, hl1⟩
      simp [hhead1]
    | cons u l =>
      have hfuel : 0 < fuel := by simp at hlen; omega
      obtain ⟨s2, h2, he2, hl2⟩ := evictLoop_eq (u :: l) hl1 hL1
        (fun x hx => hlt x (by simp at hx ⊢; tauto)) hfuel (by simp at hlen ⊢; omega)
      have hnot : ∀ x ∈ u :: l, x ∉ [t] := by
        have := hL ▸ h.nodup d
        intro x hx hxt
        obtain rfl : x = t := by simpa using hxt
        exact (List.nodup_cons.mp this).1 hx
      refine ⟨s2, ?_, he1.trans he2 hnot, ?_⟩
      · simpa [hhead1] using h2
      · rwa [update_idem] at hl2

theorem evictData_eq (h : Lists s L) (hr : InRange cfg s) (hd : d < cfg.numLines / dataScale) :
    ∃ s', evictData cfg d s = some s' ∧ Evicts cfg (L d) s s' ∧ Lists s' (update L d []) := by
  have hlt : ∀ t ∈ L d, t < cfg.numLines := fun t ht => (hr t d ((h.mem d t).mp ht)).1
  have hlen : (L d).length ≤ cfg.numLines := by
    have hsub : (L d) ⊆ List.range cfg.numLines := fun t ht => List.mem_range.mpr (hlt t ht)
    simpa using (List.subperm_of_subset (h.nodup d) hsub).length_le
  rw [evictData, if_pos hd]
  exact evictLoop_eq (L d) h rfl hlt cfg.numLines_pos hlen

end

section

variable (cfg : Config) (rank : RankCands cfg.assoc) (s : DpgArray)

/-- The tag that `get_free_tag` evicts: the choice of the policy when the whole set of the address
is occupied. -/
def tagVictim (lineAddr : Address) : Option Nat :=
  if ∀ t ∈ cfg.tagSet lineAddr, (s.dataId t).isSome then some (rank.tag (cfg.firstT lineAddr))
  else none

/-- The data line that is emptied for `map`: the choice of the policy when no line has the map and
each line of its set is live. -/
def dataVictim (map : Int32) : Option Nat :=
  if lookupData cfg map s = none ∧ ∀ d ∈ cfg.dataSet map, (s.tagHeadId d).isSome then
    some (rank.data (cfg.firstD map))
  else none

end

section

variable {cfg : Config} {s : DpgArray} {L : Nat → List Nat} {map : Int32}

/-- `get_free_tag` finds a tag of the set, after evicting the victim if there is one. -/
theorem getFreeTag_eq (rank : RankCands cfg.assoc) (a : Address) (h : Lists s L) :
    ∃ t s', getFreeTag cfg rank a s = some (t, s') ∧ t ∈ cfg.tagSet a ∧ s'.dataId t = none ∧
      Evicts cfg (tagVictim cfg rank s a).toList s s' ∧ (∃ L', Lists s' L') ∧
      ∀ u, tagVictim cfg rank s a = some u → u = t ∧ (s.dataId u).isSome := by
  unfold getFreeTag
  cases hf : (cfg.tagSet a).find? fun t => (s.dataId t).isNone with
  | some t =>
    have hmem := List.mem_of_find?_eq_some hf
    have hfree : s.dataId t = none := by simpa using List.find?_some hf
    have hno : tagVictim cfg rank s a = none := by
      rw [tagVictim, if_neg]
      intro hall
      have := hall t hmem
      simp [hfree] at this
    refine ⟨t, s, rfl, hmem, hfree, ?_, ⟨L, h⟩, ?_⟩
    · rw [hno]
      exact Evicts.refl cfg s
    · simp [hno]
  | none =>
    have hall : ∀ t ∈ cfg.tagSet a, (s.dataId t).isSome := by
      intro t ht
      have := List.find?_eq_none.mp hf t ht
      cases hd : s.dataId t <;> simp_all
    have hv : tagVictim cfg rank s a = some (rank.tag (cfg.firstT a)) := by
      rw [tagVictim, if_pos hall]
    have hmem := (cfg.mem_tagSet).mpr (rank.tag_mem (cfg.firstT a))
    obtain ⟨d, hd⟩ := Option.isSome_iff_exists.mp (hall _ hmem)
    obtain ⟨x, y, hL⟩ := List.append_of_mem ((h.mem d _).mpr hd)
    obtain ⟨s', hs', he, hl'⟩ := evictTag_eq h hL (cfg.tagSet_lt hmem)
    refine ⟨_, s', by simp only [hs']; rfl, hmem, ?_, ?_, ⟨_, hl'⟩, ?_⟩
    · rw [he.dataId, if_pos (by simp)]
    · rw [hv]
      exact he
    · intro u hu
      obtain rfl : rank.tag (cfg.firstT a) = u := by simpa [hv] using hu
      exact ⟨rfl, hall _ hmem⟩

/-- `get_free_data` finds a data line of the set, after evicting the sharers of the victim if
there is one. -/
theorem getFreeData_eq (rank : RankCands cfg.assoc) (h : Lists s L) (hr : InRange cfg s)
    (hmap : lookupData cfg map s = none) :
    ∃ d s' E, getFreeData cfg rank map s = some (d, s') ∧ d ∈ cfg.dataSet map ∧
      s'.tagHeadId d = none ∧ Evicts cfg E s s' ∧ (∃ L', Lists s' L') ∧ E.Nodup ∧
      ∀ u, u ∈ E ↔ ∃ v, dataVictim cfg rank s map = some v ∧ s.dataId u = some v := by
  unfold getFreeData
  cases hf : (cfg.dataSet map).find? fun d => (s.tagHeadId d).isNone with
  | some d =>
    have hmem := List.mem_of_find?_eq_some hf
    have hfree : s.tagHeadId d = none := by simpa using List.find?_some hf
    have hno : dataVictim cfg rank s map = none := by
      rw [dataVictim, if_neg]
      intro ⟨_, hall⟩
      have := hall d hmem
      simp [hfree] at this
    exact ⟨d, s, [], rfl, hmem, hfree, Evicts.refl cfg s, ⟨L, h⟩, by simp, by simp [hno]⟩
  | none =>
    have hall : ∀ d ∈ cfg.dataSet map, (s.tagHeadId d).isSome := by
      intro d hd
      have := List.find?_eq_none.mp hf d hd
      cases hh : s.tagHeadId d <;> simp_all
    have hv : dataVictim cfg rank s map = some (rank.data (cfg.firstD map)) := by
      rw [dataVictim, if_pos ⟨hmap, hall⟩]
    have hmem := (cfg.mem_dataSet).mpr (rank.data_mem (cfg.firstD map))
    obtain ⟨s', hs', he, hl'⟩ := evictData_eq h hr (cfg.dataSet_lt hmem)
    refine ⟨_, s', L (rank.data (cfg.firstD map)), by simp only [hs']; rfl, hmem, ?_, he, ⟨_, hl'⟩,
      h.nodup _, ?_⟩
    · rw [hl'.head, update_self]
      rfl
    · intro u
      rw [h.mem, hv]
      simp

end

end Doppelganger.Dpg
