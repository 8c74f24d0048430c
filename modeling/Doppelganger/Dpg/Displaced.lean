import Doppelganger.Dpg.Ops

/-! Inclusion between the array and its coherence controller: an operation hands to
`processEviction` exactly the tags that it displaces. -/

namespace Doppelganger.Dpg

open Function Lib

section

variable (cfg : Config) (rank : RankCands cfg.assoc) (a : Address) (map : Int32) (s : DpgArray)

/-- A lookup displaces the sharers of the data line chosen as the victim after the tag that it
re-maps is unlinked. -/
def DisplacedByLookup (u : Nat) : Prop :=
  ∃ t d s1 v, findTag cfg a s = some t ∧ s.dataId t = some d ∧ map ≠ s.mapValue d ∧
    removeTag t s = some s1 ∧ dataVictim cfg rank s1 map = some v ∧ s1.dataId u = some v

/-- `preinsert` displaces the tag victim, and the sharers of the data line chosen as the victim
after that. -/
def DisplacedByPreinsert (u : Nat) : Prop :=
  tagVictim cfg rank s a = some u ∨
    ∃ t s1 v, getFreeTag cfg rank a s = some (t, s1) ∧ dataVictim cfg rank s1 map = some v ∧
      s1.dataId u = some v

end

/-- The step from `s` to `s'` evicts the tags that meet `P`, each once, with the address that it
stored and an id of the upper half of the controller, and no other tag; `own` is the tag that the
operation re-maps or fills. -/
structure Evicted (cfg : Config) (P : Nat → Prop) (own : Option Nat) (s s' : DpgArray) : Prop where
  sent : ∃ E : List Nat, s'.evictions = s.evictions ++ E.map (evictionOf cfg s) ∧ E.Nodup ∧
    ∀ u, u ∈ E ↔ P u
  resident : ∀ u, P u → (s.dataId u).isSome
  lineId : ∀ u, P u → cfg.numLines ≤ (evictionOf cfg s u).lineId ∧
    (evictionOf cfg s u).lineId < 2 * cfg.numLines
  gone : ∀ u, P u → own ≠ some u → s'.dataId u = none
  kept : ∀ u, ¬P u → own ≠ some u → s'.dataId u = s.dataId u ∧ s'.addr u = s.addr u
  own_stays : ∀ t, own = some t → (s'.dataId t).isSome

section

variable {cfg : Config} {rank : RankCands cfg.assoc} {a : Address} {map : Int32}
  {s s' : DpgArray} {P : Nat → Prop} {t d : Nat} {E : List Nat} {x : Address}

theorem Placed.evicted (h : Placed cfg t d map x E s s') (hr : InRange cfg s) (hnd : E.Nodup)
    (hiff : ∀ u, u ∈ E ↔ P u) (hres : ∀ u, P u → ∃ e, s.dataId u = some e) :
    Evicted cfg P (some t) s s' := by
  refine ⟨⟨E, h.evictions, hnd, hiff⟩, ?_, ?_, ?_, ?_, ?_⟩
  · intro u hu
    obtain ⟨e, he⟩ := hres u hu
    simp [he]
  · intro u hu
    obtain ⟨e, he⟩ := hres u hu
    have := (hr u e he).1
    simp only [evictionOf]
    omega
  · intro u hu hut
    have hut : u ≠ t := fun e => hut (e ▸ rfl)
    rw [h.dataId, if_neg hut, if_pos ((hiff u).mpr hu)]
  · intro u hu hut
    have hut : u ≠ t := fun e => hut (e ▸ rfl)
    have hE : u ∉ E := fun hm => hu ((hiff u).mp hm)
    rw [h.dataId, h.addr, if_neg hut, if_neg hut, if_neg hE, if_neg hE]
    exact ⟨rfl, rfl⟩
  · intro u hu
    obtain rfl := Option.some.inj hu
    simp [h.self]

theorem Evicted.none_of (hP : ∀ u, ¬P u) (hown : ∀ t, own = some t → (s.dataId t).isSome) :
    Evicted cfg P own s s :=
  ⟨⟨[], by simp, by simp, by simpa using hP⟩, fun u hu => absurd hu (hP u),
    fun u hu => absurd hu (hP u), fun u hu => absurd hu (hP u), fun _ _ _ => ⟨rfl, rfl⟩, hown⟩

theorem lookup_evicted (rank : RankCands cfg.assoc) (a : Address) (map : Int32) (h : Wf cfg s) :
    ∃ id s', lookup cfg rank a map s = some (id, s') ∧
      Evicted cfg (DisplacedByLookup cfg rank a map s) (findTag cfg a s) s s' ∧
      ∀ t, findTag cfg a s = some t → ¬DisplacedByLookup cfg rank a map s t := by
  cases ht : findTag cfg a s with
  | none =>
    have hP : ∀ u, ¬DisplacedByLookup cfg rank a map s u := by
      rintro u ⟨t, d, s1, v, ht', -⟩
      simp [ht] at ht'
    exact ⟨none, s, lookup_miss h ht, Evicted.none_of hP (by simp), by simp⟩
  | some t =>
    obtain ⟨-, -, d, hd⟩ := findTag_some ht
    by_cases hm : map = s.mapValue d
    · have hP : ∀ u, ¬DisplacedByLookup cfg rank a map s u := by
        rintro u ⟨t', d', s1, v, ht', hd', hm', -⟩
        obtain rfl : t = t' := by simpa [ht] using ht'
        obtain rfl : d = d' := by simpa [hd] using hd'
        exact hm' hm
      exact ⟨_, s, lookup_same h ht hd hm.symm, Evicted.none_of hP (by simp [hd]),
        fun u _ => hP u⟩
    · obtain ⟨s1, d', s', E, h1, h2, hp, -, hnd, htE, hiff⟩ := lookup_remap rank h ht hd hm
      have hiff' : ∀ u, u ∈ E ↔ DisplacedByLookup cfg rank a map s u := by
        intro u
        rw [hiff]
        constructor
        · rintro ⟨v, hv, hu⟩
          exact ⟨t, d, s1, v, ht, hd, hm, h1, hv, hu⟩
        · rintro ⟨t', d'', s2, v, ht', -, -, h1', hv, hu⟩
          obtain rfl : t = t' := by simpa [ht] using ht'
          obtain rfl : s1 = s2 := by simpa [h1] using h1'
          exact ⟨v, hv, hu⟩
      have hres : ∀ u, DisplacedByLookup cfg rank a map s u → ∃ e, s.dataId u = some e := by
        intro u hu
        obtain ⟨v, -, hv⟩ := (hiff u).mp ((hiff' u).mpr hu)
        obtain ⟨s2, h1', -, -, hid, -⟩ := removeTag_wf h hd
        obtain rfl : s1 = s2 := by simpa [h1] using h1'
        rw [hid] at hv
        by_cases hut : u = t <;> simp [hut] at hv
        exact ⟨v, hv⟩
      refine ⟨_, s', h2, hp.evicted h.inRange hnd hiff' hres, ?_⟩
      intro u hu
      obtain rfl := Option.some.inj hu
      exact fun hP => htE ((hiff' t).mpr hP)

theorem preinsert_evicted (rank : RankCands cfg.assoc) (a : Address) (map : Int32)
    (h : Wf cfg s) :
    ∃ t s', preinsert cfg rank a map s = some (t + cfg.numLines, s') ∧
      Evicted cfg (DisplacedByPreinsert cfg rank a map s) (some t) s s' ∧
      (DisplacedByPreinsert cfg rank a map s t → tagVictim cfg rank s a = some t) := by
  obtain ⟨t, s1, d, x, s', F, h1, h2, -, hp, -, hnd, htF, hvic, hiff⟩ := preinsert_eq rank a map h
  have hiff' : ∀ u, u ∈ (tagVictim cfg rank s a).toList ++ F ↔
      DisplacedByPreinsert cfg rank a map s u := by
    intro u
    rw [List.mem_append, Option.mem_toList, hiff]
    constructor
    · rintro (ht | ⟨v, hv, hu⟩)
      · exact .inl ht
      · exact .inr ⟨t, s1, v, h1, hv, hu⟩
    · rintro (ht | ⟨t', s2, v, h1', hv, hu⟩)
      · exact .inl ht
      · obtain ⟨-, rfl⟩ : t = t' ∧ s1 = s2 := by simpa [h1] using h1'
        exact .inr ⟨v, hv, hu⟩
  have hres : ∀ u, DisplacedByPreinsert cfg rank a map s u → ∃ e, s.dataId u = some e := by
    intro u hu
    rcases List.mem_append.mp ((hiff' u).mpr hu) with hm | hm
    · exact Option.isSome_iff_exists.mp (hvic u (by simpa using hm)).2
    · obtain ⟨v, -, hv⟩ := (hiff u).mp hm
      obtain ⟨L, hL⟩ := h.lists
      obtain ⟨t', s2, h1', -, -, hE, -⟩ := getFreeTag_eq rank a hL
      obtain ⟨-, rfl⟩ : t = t' ∧ s1 = s2 := by simpa [h1] using h1'
      exact ⟨v, (hE.occupied hv).2⟩
  refine ⟨t, s', h2, hp.evicted h.inRange hnd hiff' hres, fun hP => ?_⟩
  rcases List.mem_append.mp ((hiff' t).mpr hP) with hm | hm
  · simpa using hm
  · exact absurd hm htF

/-- From a well-formed array, `lookup` and `preinsert` end, and the tags handed to
`processEviction` are the displaced ones; a lookup does not evict the tag that it re-maps, and
`preinsert` evicts the tag that it fills only as the tag victim, before the new line is in it. -/
theorem displaced_evicted (cfg : Config) (rank : RankCands cfg.assoc) (a : Address) (map : Int32)
    (s : DpgArray) (h : Wf cfg s) :
    (∃ id s', lookup cfg rank a map s = some (id, s') ∧
      Evicted cfg (DisplacedByLookup cfg rank a map s) (findTag cfg a s) s s' ∧
      ∀ t, findTag cfg a s = some t → ¬DisplacedByLookup cfg rank a map s t) ∧
    ∃ t s', preinsert cfg rank a map s = some (t + cfg.numLines, s') ∧
      Evicted cfg (DisplacedByPreinsert cfg rank a map s) (some t) s s' ∧
      (DisplacedByPreinsert cfg rank a map s t → tagVictim cfg rank s a = some t) :=
  ⟨lookup_evicted rank a map h, preinsert_evicted rank a map h⟩

/-- Inserting address 1 with another map takes the only data line from address 0. -/
theorem displaced_evicted_tiny :
    (preinsert tiny tinyRank 1 6 tinyFull).map (fun p => p.2.evictions) = some [⟨0, 2⟩] ∧
    (∃ id s', lookup tiny tinyRank 1 6 tinyFull = some (id, s') ∧
      Evicted tiny (DisplacedByLookup tiny tinyRank 1 6 tinyFull) (findTag tiny 1 tinyFull)
        tinyFull s' ∧
      ∀ t, findTag tiny 1 tinyFull = some t → ¬DisplacedByLookup tiny tinyRank 1 6 tinyFull t) ∧
    ∃ t s', preinsert tiny tinyRank 1 6 tinyFull = some (t + tiny.numLines, s') ∧
      Evicted tiny (DisplacedByPreinsert tiny tinyRank 1 6 tinyFull) (some t) tinyFull s' ∧
      (DisplacedByPreinsert tiny tinyRank 1 6 tinyFull t →
        tagVictim tiny tinyRank tinyFull 1 = some t) :=
  ⟨by decide, displaced_evicted tiny tinyRank 1 6 tinyFull tinyFull_wf⟩

end

end Doppelganger.Dpg
