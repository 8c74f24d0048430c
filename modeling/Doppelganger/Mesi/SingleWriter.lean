import Doppelganger.Mesi.Runs

/-! The directories after every run, and what follows for the terminal caches: one with the right to
write the line is the only one that has it.  And no dirty data is lost: what a store wrote is in
some cache until the hierarchy hands it on. -/

namespace Doppelganger.Mesi

open MESIState List

/-- The entry of a cache in state `s` says which of the children have the line and how. -/
structure Directory (s : MESIState) (e : Entry) (children : List Node) : Prop where
  count : e.numSharers = e.sharers.count true
  exclusive : ∀ childId child, children[childId]? = some child →
    (child.state = M ∨ child.state = E ↔ e.isExclusive = true ∧ e.sharer childId = true)
  shared : ∀ childId child, children[childId]? = some child →
    (child.state = S ↔ e.isExclusive = false ∧ e.sharer childId = true)
  own_exclusive : ∀ child ∈ children, child.state = M ∨ child.state = E → s = M ∨ s = E
  own_valid : ∀ child ∈ children, child.state = S → s ≠ I

section

variable {s t : MESIState} {e : Entry} {cs : List Node} {node child : Node} {f : Frame}
  {fs : List Frame} {lb rb : List Bool} {b : Bool} {childId : Nat} {path : List Nat}

/-- A child of a coherent cache, with the frame around it. -/
theorem fits_child (h : Coherent (.cache s e cs)) (hchild : cs[childId]? = some child) :
    ∃ lb rb, Frame.Fits ⟨s, e, cs.take childId, cs.drop (childId + 1)⟩ lb rb (e.sharer childId)
      child.state ∧ Coherent child := by
  have hunplug : (Node.cache s e cs).unplug childId =
      some (⟨s, e, cs.take childId, cs.drop (childId + 1)⟩, child) := by
    rw [Node.unplug, hchild]
    rfl
  rw [← Frame.plug_unplug hunplug, coherent_plug] at h
  obtain ⟨⟨lb, rb, b, hf⟩, hc⟩ := h
  have hlt : childId < cs.length := (List.getElem?_eq_some_iff.mp hchild).1
  have hlen : (cs.take childId).length = childId := by simp [Nat.le_of_lt hlt]
  have hb : e.sharer childId = b := by
    have hsharer := hf.sharer
    rwa [hlen] at hsharer
  exact ⟨lb, rb, hb ▸ hf, hc⟩

theorem mem_others {i j : Nat} (hij : i ≠ j) (hchild : cs[j]? = some child) :
    child ∈ cs.take i ++ cs.drop (i + 1) := by
  rcases Nat.lt_or_gt_of_ne hij with hlt | hgt
  · refine mem_append_right _ (mem_of_getElem? (i := j - (i + 1)) ?_)
    rw [getElem?_drop, Nat.add_sub_cancel' hlt, hchild]
  · refine mem_append_left _ (mem_of_getElem? (i := j) ?_)
    rw [getElem?_take_of_lt hgt, hchild]

theorem Coherent.directory (h : Coherent (.cache s e cs)) : Directory s e cs := by
  obtain ⟨hcount, hall, -⟩ := coherent_cache.mp h
  refine ⟨hcount.count, fun i c hc => ?_, fun i c hc => ?_, fun c hc => ?_, fun c hc => ?_⟩
  · obtain ⟨lb, rb, hf, -⟩ := fits_child h hc
    exact hf.hole.exclusive
  · obtain ⟨lb, rb, hf, -⟩ := fits_child h hc
    exact hf.hole.shared
  · obtain ⟨b, -, hagrees⟩ := agrees_of_mem hall hc
    exact hagrees.own_exclusive
  · obtain ⟨b, -, hagrees⟩ := agrees_of_mem hall hc
    exact hagrees.own_valid

/-- A cache above a terminal cache that may write the line may write it. -/
theorem leaf_exclusive : ∀ {path : List Nat} {node : Node}, Coherent node →
    leaf path node = some s → s = M ∨ s = E → node.state = M ∨ node.state = E
  | [], .terminal _, _, hleaf, hs => by
    simp only [leaf, Option.some.injEq] at hleaf
    rwa [← hleaf] at hs
  | childId :: path, .cache s e cs, hc, hleaf, hs => by
    simp only [leaf, Option.bind_eq_some_iff] at hleaf
    obtain ⟨child, hchild, hleaf⟩ := hleaf
    obtain ⟨lb, rb, hf, hcc⟩ := fits_child hc hchild
    exact hf.hole.own_exclusive (leaf_exclusive hcc hleaf hs)

/-- Below a cache that does not have the line nobody has it. -/
theorem leaf_invalid : ∀ {path : List Nat} {node : Node}, Coherent node → node.state = I →
    leaf path node = some s → s = I
  | [], .terminal _, _, hI, hleaf => by
    simp only [leaf, Option.some.injEq] at hleaf
    rwa [← hleaf]
  | childId :: path, .cache _ e cs, hc, hI, hleaf => by
    simp only [leaf, Option.bind_eq_some_iff] at hleaf
    obtain ⟨child, hchild, hleaf⟩ := hleaf
    obtain ⟨lb, rb, hf, hcc⟩ := fits_child hc hchild
    refine leaf_invalid hcc ?_ hleaf
    cases hst : child.state with
    | I => rfl
    | S => exact absurd hI (hf.hole.own_valid hst)
    | _ =>
      have hown := hf.hole.own_exclusive (by simp [hst])
      have hI : (Node.state (.cache _ e cs)) = I := hI
      rw [Node.state] at hI
      simp [hI] at hown

/-- A terminal cache that may write the line is the only one that has it. -/
theorem leaf_unique : ∀ {path path' : List Nat} {node : Node}, Coherent node →
    leaf path node = some s → leaf path' node = some t → path ≠ path' → s = M ∨ s = E → t = I
  | [], [], _, _, _, _, hne, _ => absurd rfl hne
  | [], _ :: _, node, _, hs, ht, _, _ => by cases node <;> simp [leaf] at hs ht
  | _ :: _, [], node, _, hs, ht, _, _ => by cases node <;> simp [leaf] at hs ht
  | i :: path, j :: path', .cache s' e cs, hc, hs, ht, hne, hw => by
    simp only [leaf, Option.bind_eq_some_iff] at hs ht
    obtain ⟨child, hchild, hs⟩ := hs
    obtain ⟨child', hchild', ht⟩ := ht
    obtain ⟨lb, rb, hf, hcc⟩ := fits_child hc hchild
    by_cases hij : i = j
    · subst hij
      obtain rfl : child = child' := Option.some.inj (hchild.symm.trans hchild')
      exact leaf_unique hcc hs ht (fun h => hne (by rw [h])) hw
    · -- The entry is exclusive, and its one sharer is child `i`.
      obtain ⟨he, hb⟩ := hf.hole.exclusive.mp (leaf_exclusive hcc hs hw)
      rw [hb] at hf
      have hmem := mem_others hij hchild'
      obtain ⟨-, -, -, hcc'⟩ := fits_child hc hchild'
      exact leaf_invalid hcc' (hf.others he rfl hmem) ht

end

/-- Loads, prefetches, stores, evictions and invalidations never fail an assertion, and after each
run of them every directory is right, and a terminal cache that may write a line is the only one
that has it. -/
theorem hierarchy_coherent {lines : Address → Line}
    (hfresh : ∀ a, Fresh (lines a).root ∧ (lines a).dirty = false) (ops : List (Address × Op)) :
    ∃ lines', Lib.run stepAt ops lines = some lines' ∧ ∀ a,
      (∀ path fs s e children,
        locate path [] (lines' a).root = some (fs, .cache s e children) → Directory s e children) ∧
      ∀ path path' s t, leaf path (lines' a).root = some s → leaf path' (lines' a).root = some t →
        path ≠ path' → s = M ∨ s = E → t = I := by
  obtain ⟨lines', hrun, hinv⟩ := run_inv hfresh ops
  refine ⟨lines', hrun, fun a => ⟨fun path fs s e cs hl => ?_, ?_⟩⟩
  · exact (coherent_locate (hinv a).coherent hl).2.directory
  · intro path path' s t hs ht hne hw
    exact leaf_unique (hinv a).coherent hs ht hne hw

/-- Two cores store to a line in turn, and the first one loads it again; another line is stored to,
evicted and prefetched. -/
theorem hierarchy_coherent_small : ∃ lines',
    Lib.run stepAt [(64, .store [0, 0] ⟨false, false⟩), (64, .store [1, 0] ⟨false, false⟩),
      (64, .load [0, 0] ⟨false, false⟩), (128, .store [0, 1] ⟨false, false⟩), (128, .evict [0]),
      (128, .prefetch [1] ⟨false, false⟩)]
      noLines = some lines' ∧ ∀ a,
      (∀ path fs s e children,
        locate path [] (lines' a).root = some (fs, .cache s e children) → Directory s e children) ∧
      ∀ path path' s t, leaf path (lines' a).root = some s → leaf path' (lines' a).root = some t →
        path ≠ path' → s = M ∨ s = E → t = I :=
  hierarchy_coherent fresh_noLines _

/-! ### Dirty data -/

/-- After each run the data that a store wrote and that did not go to memory yet is in some cache in
state `M`.  An eviction of any cache sends a PUTX when there is dirty data at or below it, which
makes the next level dirty or goes to memory, and never a PUTS; an invalidation reports the
writeback; and the invalidations of a GETS or GETX make the level above the dirty copy dirty. -/
theorem dirty_kept {lines : Address → Line}
    (hfresh : ∀ a, Fresh (lines a).root ∧ (lines a).dirty = false) (ops : List (Address × Op)) :
    ∃ lines', Lib.run stepAt ops lines = some lines' ∧ ∀ a,
      ((lines' a).dirty = true → HoldsM (lines' a).root) ∧
      ∀ path fs node, locate path [] (lines' a).root = some (fs, node) →
        (∃ fs' node' request, processEviction fs node = some (fs', node', request) ∧
          (HoldsM node → request = some .PUTX ∧ (fs = [] ∨ NextM fs')) ∧
          (request = some .PUTS → ¬HoldsM node)) ∧
        (∀ type wb, accepts type node.state = true → ∃ node' wb',
          processInv type node wb = some (node', wb') ∧ (wb' = true ↔ wb = true ∨ HoldsM node)) ∧
        ∀ flags, (node.state = I → ∃ fs' node',
            access .GETS flags fs node = some (fs', node') ∧ TakenOver fs fs') ∧
          (node.state = I ∨ node.state = S → ∃ fs' node',
            access .GETX flags fs node = some (fs', node') ∧ TakenOver fs fs') := by
  obtain ⟨lines', hrun, hinv⟩ := run_inv hfresh ops
  refine ⟨lines', hrun, fun a => ⟨(hinv a).dirty, fun path fs node hl => ?_⟩⟩
  obtain ⟨habove, hc⟩ := coherent_locate (hinv a).coherent hl
  refine ⟨?_, ?_, fun flags => ⟨fun hI => ?_, fun hIS => ?_⟩⟩
  · obtain ⟨fs', node', request, hev, -, -, he⟩ := processEviction_spec hc habove
    refine ⟨fs', node', request, hev, fun hM => ⟨he.putx.mpr hM, he.written hM⟩, fun hputs hM => ?_⟩
    have hputx := he.putx.mpr hM
    rw [hputs] at hputx
    simp at hputx
  · intro type wb ha
    obtain ⟨node', wb', hproc, -, -, hwb⟩ := hc.invalidate ha wb
    exact ⟨node', wb', hproc, hwb⟩
  · obtain ⟨fs', st, hget, -, -, -, ht⟩ := access_gets flags hI (hI ▸ habove)
    exact ⟨fs', _, hget, ht⟩
  · obtain ⟨fs', hget, -, ht⟩ := access_getx flags hIS habove
    exact ⟨fs', _, hget, ht⟩

/-- A store, a load of another core that takes the right to write from it, and the eviction of the
cache that the data went to. -/
theorem dirty_kept_small : ∃ lines',
    Lib.run stepAt [(64, .store [0, 0] ⟨false, false⟩), (64, .load [0, 1] ⟨false, false⟩),
      (64, .evict [0])] noLines = some lines' ∧
      ((lines' 64).dirty = true → HoldsM (lines' 64).root) := by
  obtain ⟨lines', hrun, h⟩ := dirty_kept fresh_noLines
    [(64, .store [0, 0] ⟨false, false⟩), (64, .load [0, 1] ⟨false, false⟩), (64, .evict [0])]
  exact ⟨lines', hrun, (h 64).1⟩

end Doppelganger.Mesi
