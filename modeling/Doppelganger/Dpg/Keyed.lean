import Doppelganger.Dpg.Evict

/-! The data lines are keyed by their maps.  `Wf` is the invariant of the two arrays, and
`joinData`, the part that `lookup` and `preinsert` share, keeps it. -/

namespace Doppelganger.Dpg

open Function Lib

/-- Live data lines sit in the sets of their maps, and no two of them have the same map. -/
structure Keyed (cfg : Config) (s : DpgArray) : Prop where
  key : ∀ t d, s.dataId t = some d → d ∈ cfg.dataSet (s.mapValue d)
  unique : ∀ t u d e, s.dataId t = some d → s.dataId u = some e →
    s.mapValue d = s.mapValue e → d = e

structure Wf (cfg : Config) (s : DpgArray) : Prop where
  lists : ∃ L, Lists s L
  inRange : InRange cfg s
  keyed : Keyed cfg s

theorem init_wf (cfg : Config) : Wf cfg init :=
  ⟨⟨_, init_lists⟩, by simp [InRange, init], by constructor <;> simp [init]⟩

/-- Tag `t` ends on data line `d`, which has the map `map`, and stores the address `x`; the tags
of `E` are evicted, and every other tag stays as it was. -/
structure Placed (cfg : Config) (t d : Nat) (map : Int32) (x : Address) (E : List Nat)
    (s s' : DpgArray) : Prop where
  dataId : ∀ u, s'.dataId u = if u = t then some d else if u ∈ E then none else s.dataId u
  addr : ∀ u, s'.addr u = if u = t then x else if u ∈ E then -1 else s.addr u
  map_eq : s'.mapValue d = map
  mapValue : ∀ u e, u ≠ t → s'.dataId u = some e → s'.mapValue e = s.mapValue e
  evictions : s'.evictions = s.evictions ++ E.map (evictionOf cfg s)

section

variable {cfg : Config} {rank : RankCands cfg.assoc} {s s' s'' : DpgArray} {L : Nat → List Nat}
  {E F : List Nat} {t u d e : Nat} {map : Int32} {x : Address}

/-- Whether a data line is live shows on the tags. -/
theorem Lists.isSome_head (h : Lists s L) (d : Nat) :
    (s.tagHeadId d).isSome = true ↔ ∃ t, s.dataId t = some d := by
  rw [← not_iff_not, Option.not_isSome_iff_eq_none, h.head_eq_none, not_exists]

theorem lookupData_some (h : Lists s L) (hd : lookupData cfg map s = some d) :
    d ∈ cfg.dataSet map ∧ s.mapValue d = map ∧ ∃ t, s.dataId t = some d := by
  have hp := List.find?_some hd
  simp only [Bool.and_eq_true, beq_iff_eq] at hp
  exact ⟨List.mem_of_find?_eq_some hd, hp.1, (h.isSome_head d).mp hp.2⟩

theorem lookupData_none (h : Lists s L) (hk : Keyed cfg s) :
    lookupData cfg map s = none ↔ ∀ t d, s.dataId t = some d → s.mapValue d ≠ map := by
  constructor
  · intro hn t d ht hm
    have hmem : d ∈ cfg.dataSet map := hm ▸ hk.key t d ht
    have := List.find?_eq_none.mp hn d hmem
    simp [hm, (h.isSome_head d).mpr ⟨t, ht⟩] at this
  · intro hall
    cases hd : lookupData cfg map s with
    | none => rfl
    | some d =>
      obtain ⟨-, hm, t, ht⟩ := lookupData_some h hd
      exact absurd hm (hall t d ht)

namespace Placed

theorem occupied (h : Placed cfg t d map x E s s') (hu : s'.dataId u = some e) (hut : u ≠ t) :
    u ∉ E ∧ s.dataId u = some e := by
  rw [h.dataId, if_neg hut] at hu
  by_cases hE : u ∈ E
  · simp [hE] at hu
  · exact ⟨hE, by simpa [hE] using hu⟩

theorem self (h : Placed cfg t d map x E s s') : s'.dataId t = some d := by
  rw [h.dataId, if_pos rfl]

theorem inRange (h : Placed cfg t d map x E s s') (hr : InRange cfg s) (ht : t < cfg.numLines)
    (hd : d ∈ cfg.dataSet map) : InRange cfg s' := by
  intro u e hu
  by_cases hut : u = t
  · rw [hut, h.self] at hu
    obtain rfl := Option.some.inj hu
    exact ⟨hut ▸ ht, cfg.dataSet_lt hd⟩
  · exact hr u e (h.occupied hu hut).2

/-- A tag that stays keeps its data line, and the map of it. -/
theorem kept (h : Placed cfg t d map x E s s') (hu : s'.dataId u = some e) (hut : u ≠ t) :
    s.dataId u = some e ∧ s'.mapValue e = s.mapValue e :=
  ⟨(h.occupied hu hut).2, h.mapValue u e hut hu⟩

/-- The data lines stay keyed when no other line with the map of `t` is live. -/
theorem keyed (h : Placed cfg t d map x E s s') (hk : Keyed cfg s) (hd : d ∈ cfg.dataSet map)
    (hfresh : ∀ u e, u ≠ t → s.dataId u = some e → s.mapValue e = map → e = d) :
    Keyed cfg s' := by
  have honly : ∀ u e, u ≠ t → s'.dataId u = some e → s'.mapValue e = map → e = d := by
    intro u e hut hu hm
    obtain ⟨hu', hm'⟩ := h.kept hu hut
    exact hfresh u e hut hu' (hm' ▸ hm)
  constructor
  · intro u e hu
    by_cases hut : u = t
    · rw [hut, h.self] at hu
      obtain rfl := Option.some.inj hu
      rwa [h.map_eq]
    · obtain ⟨hu', hm'⟩ := h.kept hu hut
      rw [hm']
      exact hk.key u e hu'
  · intro u v e f hu hv hm
    by_cases hut : u = t
    · rw [hut, h.self] at hu
      obtain rfl := Option.some.inj hu
      rw [h.map_eq] at hm
      by_cases hvt : v = t
      · rw [hvt, h.self] at hv
        exact Option.some.inj hv
      · exact (honly v f hvt hv hm.symm).symm
    · obtain ⟨hu', hmu⟩ := h.kept hu hut
      by_cases hvt : v = t
      · rw [hvt, h.self] at hv
        obtain rfl := Option.some.inj hv
        exact honly u e hut hu (hm.trans h.map_eq)
      · obtain ⟨hv', hmv⟩ := h.kept hv hvt
        exact hk.unique u v e f hu' hv' (by rw [← hmu, ← hmv, hm])

end Placed

theorem Evicts.keyed (h : Evicts cfg E s s') (hk : Keyed cfg s) : Keyed cfg s' := by
  constructor
  · intro u e hu
    rw [h.mapValue u e hu]
    exact hk.key u e (h.occupied hu).2
  · intro u v e f hu hv hm
    rw [h.mapValue u e hu, h.mapValue v f hv] at hm
    exact hk.unique u v e f (h.occupied hu).2 (h.occupied hv).2 hm

/-- A tag that is evicted and then placed adds to the evictions of its placement. -/
theorem Evicts.placed (h : Evicts cfg E s s') (h' : Placed cfg t d map x F s' s'')
    (hEF : ∀ u ∈ F, u ∉ E) : Placed cfg t d map x (E ++ F) s s'' := by
  have hsame : F.map (evictionOf cfg s') = F.map (evictionOf cfg s) := by
    refine List.map_congr_left fun u hu => ?_
    rw [evictionOf, evictionOf, h.addr, if_neg (hEF u hu)]
  refine ⟨fun u => ?_, fun u => ?_, h'.map_eq, fun u e hut hu => ?_, ?_⟩
  · rw [h'.dataId, h.dataId]
    by_cases hF : u ∈ F <;> simp [hF]
  · rw [h'.addr, h.addr]
    by_cases hF : u ∈ F <;> simp [hF]
  · exact (h'.mapValue u e hut hu).trans (h.mapValue u e (h'.occupied hu hut).2)
  · rw [h'.evictions, h.evictions, hsame, List.map_append, List.append_assoc]

/-- A tag that no list holds joins the data line with the map, or a line emptied for it. -/
theorem joinData_eq (rank : RankCands cfg.assoc) (map : Int32) (h : Wf cfg s)
    (ht : t < cfg.numLines) (hfree : s.dataId t = none) :
    ∃ d s' E, joinData cfg rank t map s = some s' ∧ Placed cfg t d map (s.addr t) E s s' ∧
      Wf cfg s' ∧ E.Nodup ∧
      ∀ u, u ∈ E ↔ ∃ v, dataVictim cfg rank s map = some v ∧ s.dataId u = some v := by
  obtain ⟨L, hL⟩ := h.lists
  unfold joinData
  cases hd : lookupData cfg map s with
  | some d =>
    obtain ⟨hmem, hm, v, hv⟩ := lookupData_some hL hd
    have hno : dataVictim cfg rank s map = none := by simp [dataVictim, hd]
    have hp : Placed cfg t d map (s.addr t) [] s (addTag t d s) := by
      constructor <;> cases hh : s.tagHeadId d <;> simp [addTag, hh, update_apply, hm]
    refine ⟨d, _, [], rfl, hp, ⟨⟨_, hL.addTag hfree⟩, hp.inRange h.inRange ht hmem,
      hp.keyed h.keyed hmem ?_⟩, by simp, by simp [hno]⟩
    intro u e _ hu he
    exact h.keyed.unique u v e d hu hv (he.trans hm.symm)
  | none =>
    obtain ⟨d, s1, E, h1, hmem, hdead, hE, ⟨L1, hL1⟩, hnd, hiff⟩ :=
      getFreeData_eq rank hL h.inRange hd
    have htE : t ∉ E := by
      intro hm
      obtain ⟨v, -, hv⟩ := (hiff t).mp hm
      simp [hfree] at hv
    have hfree1 : s1.dataId t = none := by rw [hE.dataId, if_neg htE, hfree]
    have hc : Placed cfg t d map (s1.addr t) [] s1 (claimData t d map s1) := by
      refine ⟨?_, ?_, ?_, ?_, ?_⟩
      · simp [claimData, update_apply]
      · simp [claimData]
      · simp [claimData]
      · intro u e hut hu
        have hed : e ≠ d := by
          rintro rfl
          simp [claimData, hut] at hu
          exact (hL1.head_eq_none e).mp hdead u hu
        simp [claimData, update_of_ne hed]
      · simp [claimData]
    have haddr : s1.addr t = s.addr t := by rw [hE.addr, if_neg htE]
    have hp := hE.placed (haddr ▸ hc) (by simp)
    rw [List.append_nil] at hp
    refine ⟨d, claimData t d map s1, E, by rw [h1]; rfl, hp, ⟨⟨_, hL1.claimData hfree1 hdead⟩,
      hp.inRange h.inRange ht hmem, hp.keyed h.keyed hmem ?_⟩, hnd, hiff⟩
    intro u e _ hu he
    exact absurd he ((lookupData_none hL h.keyed).mp hd u e hu)

end

end Doppelganger.Dpg
