import Doppelganger.Dpg.History

/-! The addresses of the tags.  `remove_tag` clears the address of the tag that a lookup re-maps,
and nothing stores it again: the tag stays occupied, but no lookup of the address finds it.  In runs
without such a lookup each occupied tag keeps the address put in it. -/

namespace Doppelganger.Dpg

open Function Lib History

/-- Each occupied tag stores the address last put in it, is in the tag set of that address, and is
the only one with it. -/
structure Addressed (cfg : Config) (h : History) : Prop where
  stored : ∀ t d, h.array.dataId t = some d → h.array.addr t = h.put t
  inSet : ∀ t d, h.array.dataId t = some d → t ∈ cfg.tagSet (h.array.addr t)
  unique : ∀ t u d e, h.array.dataId t = some d → h.array.dataId u = some e →
    h.array.addr t = h.array.addr u → t = u

/-- A lookup meets no tag of its address on a data line with another map (which `-1`, the cleared
address, survives), and only an address without a tag is inserted. -/
def Undisturbed (cfg : Config) : Op cfg.assoc → History → Prop
  | .lookup _ lineAddr map, h => ∀ t ∈ cfg.tagSet lineAddr, ∀ d, h.array.addr t = lineAddr →
      h.array.dataId t = some d → h.array.mapValue d = map ∨ lineAddr = -1
  | .insert _ lineAddr _, h => ∀ t ∈ cfg.tagSet lineAddr, h.array.addr t = lineAddr →
      h.array.dataId t = none

section

variable {cfg : Config} {h : History} {s s' : DpgArray} {E : List Nat} {t d : Nat}
  {map : Int32} {a : Address} {rank : RankCands cfg.assoc}

/-- Placing an address that no other tag stores keeps the addresses apart. -/
theorem Placed.addressed (hp : Placed cfg t d map a E h.array s) (hA : Addressed cfg h)
    (ht : t ∈ cfg.tagSet a)
    (hfresh : ∀ u e, u ≠ t → h.array.dataId u = some e → h.array.addr u ≠ a)
    (tagMap : Nat → Int32) : Addressed cfg ⟨s, update h.put t a, tagMap⟩ := by
  have hself : s.addr t = a := by rw [hp.addr, if_pos rfl]
  have hkept : ∀ u e, u ≠ t → s.dataId u = some e →
      h.array.dataId u = some e ∧ s.addr u = h.array.addr u := by
    intro u e hut hu
    obtain ⟨hE, hu'⟩ := hp.occupied hu hut
    exact ⟨hu', by rw [hp.addr, if_neg hut, if_neg hE]⟩
  constructor
  · intro u e hu
    by_cases hut : u = t
    · simp [hut, hself]
    · obtain ⟨hu', haddr⟩ := hkept u e hut hu
      simp [hut, haddr, hA.stored u e hu']
  · intro u e hu
    by_cases hut : u = t
    · subst hut
      rw [hself]
      exact ht
    · obtain ⟨hu', haddr⟩ := hkept u e hut hu
      rw [haddr]
      exact hA.inSet u e hu'
  · intro u v e f hu hv huv
    by_cases hut : u = t
    · by_cases hvt : v = t
      · rw [hut, hvt]
      · obtain ⟨hv', haddr⟩ := hkept v f hvt hv
        exact absurd (haddr.symm.trans (huv.symm.trans (hut ▸ hself))) (hfresh v f hvt hv')
    · obtain ⟨hu', haddr⟩ := hkept u e hut hu
      by_cases hvt : v = t
      · exact absurd (haddr.symm.trans (huv.trans (hvt ▸ hself))) (hfresh u e hut hu')
      · obtain ⟨hv', haddr'⟩ := hkept v f hvt hv
        exact hA.unique u v e f hu' hv' (haddr.symm.trans (huv.trans haddr'))

/-- The tag that a lookup finds is the only one with the address. -/
theorem Addressed.found (hA : Addressed cfg h) (ht : findTag cfg a h.array = some t) :
    ∀ u e, u ≠ t → h.array.dataId u = some e → h.array.addr u ≠ a := by
  obtain ⟨-, haddr, d, hd⟩ := findTag_some ht
  exact fun u e hut hu hua => hut (hA.unique u t e d hu hd (hua.trans haddr.symm))

theorem step_addressed (op : Op cfg.assoc) (h : History)
    (hi : (Wf cfg h.array ∧ h.Mapped) ∧ Addressed cfg h) (hok : Undisturbed cfg op h) :
    ∃ h', step cfg op h = some h' ∧ (Wf cfg h'.array ∧ h'.Mapped) ∧ Addressed cfg h' := by
  obtain ⟨h', hstep, hw'⟩ := step_wf op h hi.1
  obtain ⟨⟨hw, hm⟩, hA⟩ := hi
  refine ⟨h', hstep, hw', ?_⟩
  cases op with
  | lookup rank a map =>
    cases ht : findTag cfg a h.array with
    | none =>
      obtain rfl : h = h' := by simpa [step_miss (lookup_miss hw ht)] using hstep
      exact hA
    | some t =>
      obtain ⟨hmem, haddr, d, hd⟩ := findTag_some ht
      by_cases hmap : map = h.array.mapValue d
      · obtain rfl :=
          Option.some.inj ((step_hit (lookup_same hw ht hd hmap.symm)).symm.trans hstep)
        exact ⟨hA.stored, hA.inSet, hA.unique⟩
      · -- Only the address that `remove_tag` itself stores survives being re-mapped.
        have ha : a = -1 := (hok t hmem d haddr hd).resolve_left fun e => hmap e.symm
        obtain ⟨-, d', s', E, -, h2, hp, -⟩ := lookup_remap rank hw ht hd hmap
        obtain rfl := (step_hit h2).symm.trans hstep |> Option.some.inj
        have hput : update h.put t a = h.put := by
          rw [← haddr, hA.stored t d hd, update_eq_self]
        rw [← hput]
        exact (ha ▸ hp).addressed hA hmem (hA.found ht) _
  | insert rank a map =>
    obtain ⟨t, d, s', E, h2, hmem, hp, -⟩ := insert_eq rank a map hw
    obtain rfl := (step_insert h2).symm.trans hstep |> Option.some.inj
    refine hp.addressed hA hmem (fun u e _ hu hua => ?_) _
    have := hok u (hua ▸ hA.inSet u e hu) hua
    simp [hu] at this

/-- After a lookup that re-maps a tag, the next lookup of the address misses. -/
theorem remapped_lost (hA : Addressed cfg h)
    (ht : findTag cfg a h.array = some t) (ha : a ≠ -1)
    (hp : Placed cfg t d map (-1) E h.array s') : findTag cfg a s' = none := by
  rw [findTag_none]
  intro u _ hua
  by_cases hut : u = t
  · rw [hp.addr, if_pos hut] at hua
    exact absurd hua.symm ha
  · cases hu : s'.dataId u with
    | none => rfl
    | some e =>
      obtain ⟨hE, hu'⟩ := hp.occupied hu hut
      rw [hp.addr, if_neg hut, if_neg hE] at hua
      exact absurd hua (hA.found ht u e hut hu')

/-- In a run of undisturbed operations each occupied tag has the address put in it, in the right
set and in no other tag; a lookup that returns a line leaves the line findable exactly when it is
undisturbed too. -/
theorem addresses_kept (cfg : Config) (ops : List (Op cfg.assoc))
    (hops : Along (step cfg) (Undisturbed cfg) ops start) :
    ∃ h, run (step cfg) ops start = some h ∧ Addressed cfg h ∧
      ∀ rank a map lineId s', lookup cfg rank a map h.array = some (some lineId, s') →
        ((∀ rank' map', ∃ s'', lookup cfg rank' a map' s' = some (some lineId, s'')) ↔
          Undisturbed cfg (.lookup rank a map) h) := by
  have hstart : Addressed cfg start := by constructor <;> simp [start, init]
  obtain ⟨h, hrun, ⟨hw, hm⟩, hA⟩ := run_keeps step_addressed ops
    ⟨⟨init_wf cfg, by simp [Mapped, start, init]⟩, hstart⟩ hops
  refine ⟨h, hrun, hA, fun rank a map lineId s' hl => ?_⟩
  cases ht : findTag cfg a h.array with
  | none => simp [lookup_miss hw ht] at hl
  | some t =>
    obtain ⟨hmem, haddr, d, hd⟩ := findTag_some ht
    by_cases hmap : map = h.array.mapValue d
    · obtain ⟨rfl, rfl⟩ : t + cfg.numLines = lineId ∧ h.array = s' := by
        simpa [lookup_same hw ht hd hmap.symm] using hl
      refine ⟨fun _ u _ e hua hu => .inl ?_, fun _ rank' map' => lookup_again hw ht rank' map'⟩
      obtain rfl : u = t := hA.unique u t e d hu hd (hua.trans haddr.symm)
      obtain rfl : e = d := Option.some.inj (hu.symm.trans hd)
      exact hmap.symm
    · obtain ⟨-, d', s1, E, -, h2, hp, hw1, -⟩ := lookup_remap rank hw ht hd hmap
      obtain ⟨rfl, rfl⟩ : t + cfg.numLines = lineId ∧ s1 = s' := by simpa [h2] using hl
      constructor
      · intro hfind u hu e hua hue
        right
        by_contra ha
        obtain ⟨s2, hs2⟩ := hfind rank map
        simp [lookup_miss hw1 (remapped_lost hA ht ha hp)] at hs2
      · intro hok rank' map'
        have ha : a = -1 := (hok t hmem d haddr hd).resolve_left fun e => hmap e.symm
        have hfound : findTag cfg a s1 = some t := by
          cases ht1 : findTag cfg a s1 with
          | none =>
            have := findTag_none.mp ht1 t hmem (by rw [hp.addr, if_pos rfl, ha])
            simp [hp.self] at this
          | some u =>
            obtain ⟨-, hua, e, hue⟩ := findTag_some ht1
            by_cases hut : u = t
            · rw [hut]
            · obtain ⟨hE, hu⟩ := hp.occupied hue hut
              rw [hp.addr, if_neg hut, if_neg hE] at hua
              exact absurd hua (hA.found ht u e hut hu)
        exact lookup_again hw1 hfound rank' map'

theorem addresses_kept_tiny :
    ∃ h, run (step tiny) [.insert tinyRank 0 5, .lookup tinyRank 0 5] start = some h ∧
      Addressed tiny h ∧
      ∀ rank a map lineId s', lookup tiny rank a map h.array = some (some lineId, s') →
        ((∀ rank' map', ∃ s'', lookup tiny rank' a map' s' = some (some lineId, s'')) ↔
          Undisturbed tiny (.lookup rank a map) h) := by
  refine addresses_kept tiny _ ⟨fun _ _ _ => rfl, ?_⟩
  intro h hstep
  obtain rfl := (step_insert rfl).symm.trans hstep |> Option.some.inj
  refine ⟨fun t ht d _ hd => .inl ?_, fun _ _ => trivial⟩
  obtain rfl : t = 0 := by simpa [Config.tagSet, Config.firstT, tiny] using ht
  obtain rfl := Option.some.inj hd
  rfl

/-- After a store to line 0 its map is 6 and no longer 5.  The lookup that sees this returns line
2, for tag 0, which stays occupied with the address cleared, so the next lookup misses. -/
theorem remap_clears_address :
    ∃ h, run (step tiny) [.insert tinyRank 0 5, .lookup tinyRank 0 6] start = some h ∧
      ¬Addressed tiny h ∧ h.put 0 = 0 ∧ h.array.dataId 0 = some 0 ∧ h.array.addr 0 = -1 ∧
      (lookup tiny tinyRank 0 6 tinyFull).map Prod.fst = some (some 2) ∧
      (lookup tiny tinyRank 0 6 h.array).map Prod.fst = some none := by
  refine ⟨_, rfl, fun hA => ?_, rfl, rfl, rfl, rfl, rfl⟩
  exact absurd (hA.stored 0 0 rfl) (by decide)

end

end Doppelganger.Dpg
