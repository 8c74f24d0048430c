import Doppelganger.Dpg.Ops
import Doppelganger.Lib.Run

/-! Runs of the Doppelganger array.  A `History` is the array with what its past operations put in
each tag.  Every run keeps the tag lists and the keys of the data lines; a tag keeps its address as
long as no lookup re-maps it. -/

namespace Doppelganger.Dpg

open Function Lib

/-- A call of `lookup`, or of `preinsert` and the `postinsert` that follows it: the choices of the
replacement policies, the line address, and what `get_map` returns. -/
inductive Op (assoc : Nat)
  | lookup (rank : RankCands assoc) (lineAddr : Address) (map : Int32)
  | insert (rank : RankCands assoc) (lineAddr : Address) (map : Int32)

/-- `put` is the address that `postinsert` last put in each tag, `map` the map at the latest lookup
hit on the tag or insertion in it. -/
structure History where
  array : DpgArray
  put : Nat → Address
  map : Nat → Int32

namespace History

def start : History := ⟨init, fun _ => -1, fun _ => -1⟩

def step (cfg : Config) : Op cfg.assoc → History → Option History
  | .lookup rank lineAddr map, h => (lookup cfg rank lineAddr map h.array).map fun (id, s) =>
      { h with
        array := s
        map := match id with
          | some lineId => update h.map (lineId - cfg.numLines) map
          | none => h.map }
  | .insert rank lineAddr map, h => (insert cfg rank lineAddr map h.array).map fun (lineId, s) =>
      { array := s
        put := update h.put (lineId - cfg.numLines) lineAddr
        map := update h.map (lineId - cfg.numLines) map }

/-- Each occupied tag is on a data line with the map that the tag was last used with. -/
def Mapped (h : History) : Prop :=
  ∀ t d, h.array.dataId t = some d → h.array.mapValue d = h.map t

end History

section

variable {cfg : Config} {h h' : History} {op : Op cfg.assoc} {s : DpgArray} {E : List Nat}
  {t d : Nat} {map : Int32} {a x : Address} {rank : RankCands cfg.assoc}

open History

theorem step_hit (hl : lookup cfg rank a map h.array = some (some (t + cfg.numLines), s)) :
    step cfg (.lookup rank a map) h = some ⟨s, h.put, update h.map t map⟩ := by
  simp [step, hl]

theorem step_miss (hl : lookup cfg rank a map h.array = some (none, h.array)) :
    step cfg (.lookup rank a map) h = some h := by
  simp [step, hl]

theorem step_insert (hi : insert cfg rank a map h.array = some (t + cfg.numLines, s)) :
    step cfg (.insert rank a map) h = some ⟨s, update h.put t a, update h.map t map⟩ := by
  simp [step, hi]

theorem Placed.mapped (hp : Placed cfg t d map x E h.array s) (hm : h.Mapped)
    (put : Nat → Address) :
    Mapped ⟨s, put, update h.map t map⟩ := by
  intro u e hu
  by_cases hut : u = t
  · subst hut
    have hu' : s.dataId u = some e := hu
    rw [hp.self] at hu'
    obtain rfl := Option.some.inj hu'
    simp [hp.map_eq]
  · obtain ⟨hu', hmu⟩ := hp.kept hu hut
    simp [update_of_ne hut, hmu, hm u e hu']

/-- No operation fails, and each keeps the invariant of the arrays. -/
theorem step_wf (op : Op cfg.assoc) (h : History) (hw : Wf cfg h.array ∧ h.Mapped) :
    ∃ h', step cfg op h = some h' ∧ Wf cfg h'.array ∧ h'.Mapped := by
  obtain ⟨hw, hm⟩ := hw
  cases op with
  | lookup rank a map =>
    cases ht : findTag cfg a h.array with
    | none => exact ⟨h, step_miss (lookup_miss hw ht), hw, hm⟩
    | some t =>
      obtain ⟨-, -, d, hd⟩ := findTag_some ht
      by_cases hmap : map = h.array.mapValue d
      · have hself : map = h.map t := hmap.trans (hm t d hd)
        refine ⟨_, step_hit (lookup_same hw ht hd hmap.symm), hw, ?_⟩
        rw [hself, update_eq_self]
        exact hm
      · obtain ⟨-, d', s', E, -, h2, hp, hw', -⟩ := lookup_remap rank hw ht hd hmap
        exact ⟨_, step_hit h2, hw', hp.mapped hm h.put⟩
  | insert rank a map =>
    obtain ⟨t, d, s', E, h2, -, hp, hw', -⟩ := insert_eq rank a map hw
    exact ⟨_, step_insert h2, hw', hp.mapped hm _⟩

theorem run_wf (ops : List (Op cfg.assoc)) :
    ∃ h, run (step cfg) ops start = some h ∧ Wf cfg h.array ∧ h.Mapped :=
  run_always step_wf ops ⟨init_wf cfg, by simp [Mapped, start, init]⟩

/-- In every run, the tag list of each data line is empty exactly when no tag is on the line;
following `prev` from its head visits each tag of the line once, the head has no `next`, and
`next` and `prev` are inverse along it. -/
theorem tag_lists_wellFormed (cfg : Config) (ops : List (Op cfg.assoc)) :
    ∃ h, run (step cfg) ops start = some h ∧ ∀ d,
      (h.array.tagHeadId d = none ↔ ∀ t, h.array.dataId t ≠ some d) ∧
      ∃ l : List Nat, l.Nodup ∧ Follows h.array.prev (h.array.tagHeadId d) l ∧
        (∀ t, t ∈ l ↔ h.array.dataId t = some d) ∧
        (∀ t, h.array.tagHeadId d = some t → h.array.next t = none) ∧
        ∀ t ∈ l, ∀ u ∈ l, h.array.prev t = some u ↔ h.array.next u = some t := by
  obtain ⟨h, hrun, ⟨⟨L, hL⟩, -, -⟩, -⟩ := run_wf ops
  refine ⟨h, hrun, fun d => ⟨hL.head_eq_none d, L d, hL.nodup d, ?_, hL.mem d, ?_, ?_⟩⟩
  · rw [hL.head]
    exact (hL.linked d).follows
  · intro t ht
    rw [hL.head] at ht
    exact (hL.linked d).next_head ht
  · exact fun t ht u hu => (hL.linked d).inverse ht hu

/-- In every run, live data lines are in the sets of their maps, which differ; `lookupData` finds
the live line with a map whenever there is one, and no other; each occupied tag is on the line with
the map of its latest use. -/
theorem data_lines_keyed (cfg : Config) (ops : List (Op cfg.assoc)) :
    ∃ h, run (step cfg) ops start = some h ∧
      (∀ d, (h.array.tagHeadId d).isSome → d ∈ cfg.dataSet (h.array.mapValue d)) ∧
      (∀ d e, (h.array.tagHeadId d).isSome → (h.array.tagHeadId e).isSome →
        h.array.mapValue d = h.array.mapValue e → d = e) ∧
      (∀ map d, lookupData cfg map h.array = some d ↔
        (h.array.tagHeadId d).isSome ∧ h.array.mapValue d = map) ∧
      (∀ map, lookupData cfg map h.array = none ↔
        ∀ d, (h.array.tagHeadId d).isSome → h.array.mapValue d ≠ map) ∧
      ∀ t d, h.array.dataId t = some d → h.array.mapValue d = h.map t := by
  obtain ⟨h, hrun, ⟨⟨L, hL⟩, -, hk⟩, hm⟩ := run_wf ops
  have hunique : ∀ d e, (h.array.tagHeadId d).isSome → (h.array.tagHeadId e).isSome →
      h.array.mapValue d = h.array.mapValue e → d = e := by
    intro d e hd he hmap
    obtain ⟨t, ht⟩ := (hL.isSome_head d).mp hd
    obtain ⟨u, hu⟩ := (hL.isSome_head e).mp he
    exact hk.unique t u d e ht hu hmap
  have hnone : ∀ map, lookupData cfg map h.array = none ↔
      ∀ d, (h.array.tagHeadId d).isSome → h.array.mapValue d ≠ map := by
    intro map
    rw [lookupData_none hL hk]
    constructor
    · intro hall d hd
      obtain ⟨t, ht⟩ := (hL.isSome_head d).mp hd
      exact hall t d ht
    · exact fun hall t d ht => hall d ((hL.isSome_head d).mpr ⟨t, ht⟩)
  refine ⟨h, hrun, ?_, hunique, ?_, hnone, hm⟩
  · intro d hd
    obtain ⟨t, ht⟩ := (hL.isSome_head d).mp hd
    exact hk.key t d ht
  · intro map d
    constructor
    · intro hd
      obtain ⟨-, hmap, ht⟩ := lookupData_some hL hd
      exact ⟨(hL.isSome_head d).mpr ht, hmap⟩
    · rintro ⟨hd, hmap⟩
      cases hl : lookupData cfg map h.array with
      | none => exact absurd hmap ((hnone map).mp hl d hd)
      | some e =>
        obtain ⟨-, hmape, he⟩ := lookupData_some hL hl
        rw [hunique e d ((hL.isSome_head e).mpr he) hd (hmape.trans hmap.symm)]

end

end Doppelganger.Dpg
