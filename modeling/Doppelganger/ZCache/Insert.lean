import Doppelganger.ZCache.Walk
import Mathlib.GroupTheory.Perm.List

/-! Sequences of calls.  `postinsert` turns the lines of a path by one position, so each line is at
a position of its own address again, and the new line is at a seed. -/

namespace Doppelganger.ZCache

open Function List Set Lib

/-- The swaps are a cycle of the positions. -/
theorem swap_eq (candidate : Nat) : ∀ {pos : Nat} {rest : List Nat} {lookupArray : Nat → Nat},
    (pos :: rest).Nodup → swap (pos :: rest) candidate lookupArray =
      update lookupArray pos candidate ∘ (pos :: rest).formPerm
  | pos, [], lookupArray, _ => by
    rw [swap, formPerm_singleton]
    rfl
  | pos, next :: rest, lookupArray, hnodup => by
    obtain ⟨hnot, hrest⟩ := nodup_cons.mp hnodup
    have hne : pos ≠ next := fun heq => hnot (heq ▸ mem_cons_self ..)
    have hturn : update (update lookupArray pos (lookupArray next)) next candidate =
        update lookupArray pos candidate ∘ Equiv.swap pos next := by
      funext p
      rw [comp_apply]
      rcases eq_or_ne p pos with rfl | hp
      · rw [Equiv.swap_apply_left, update_of_ne hne, update_self, update_of_ne hne.symm]
      rcases eq_or_ne p next with rfl | hp'
      · rw [Equiv.swap_apply_right, update_self, update_self]
      · rw [Equiv.swap_apply_of_ne_of_ne hp hp', update_of_ne hp', update_of_ne hp, update_of_ne hp]
    rw [swap, swap_eq candidate hrest, hturn, formPerm_cons_cons]
    rfl

namespace Config

variable {cfg : Config} {lineAddr b : Address} {z : ZArray} {stored : Nat → Address}
  {path : List Nat}

/-! ### Finding a line -/

theorem Inv.mem_positions (h : cfg.Inv z) {lineId : Nat} (hid : lineId < cfg.numLines)
    (hvalid : z.array lineId ≠ 0) :
    ∃ pos ∈ cfg.positions (z.array lineId), z.lookupArray pos = lineId := by
  obtain ⟨pos, hpos, rfl⟩ := h.perm.surjOn hid
  exact ⟨pos, h.placed pos hpos hvalid, rfl⟩

/-- An address is found at the line that has it. -/
theorem Inv.find_eq_some_iff (h : cfg.Inv z) (hb : b ≠ 0) {lineId : Nat} :
    cfg.find b z = some lineId ↔ lineId < cfg.numLines ∧ z.array lineId = b := by
  have hsound : ∀ {id}, cfg.find b z = some id → id < cfg.numLines ∧ z.array id = b := by
    intro id hfind
    obtain ⟨pos, hpos, rfl⟩ := mem_map.mp (mem_of_find?_eq_some hfind)
    exact ⟨h.perm.mapsTo (lt_of_mem_positions hpos), of_decide_eq_true (find?_some hfind :)⟩
  refine ⟨hsound, fun ⟨hid, harray⟩ => ?_⟩
  subst harray
  obtain ⟨pos, hpos, hline⟩ := h.mem_positions hid hb
  cases hfind : cfg.find (z.array lineId) z with
  | none => simpa using find?_eq_none.mp hfind lineId (mem_map.mpr ⟨pos, hpos, hline⟩)
  | some id =>
    obtain ⟨hid', harray⟩ := hsound hfind
    rw [h.once lineId hid id hid' hb harray.symm]

theorem Inv.find_eq_none_iff (h : cfg.Inv z) (hb : b ≠ 0) :
    cfg.find b z = none ↔ ∀ id < cfg.numLines, z.array id ≠ b := by
  rw [Option.eq_none_iff_forall_ne_some]
  exact ⟨fun hnone id hid harray => hnone id ((h.find_eq_some_iff hb).mpr ⟨hid, harray⟩),
    fun hall id hsome => hall id ((h.find_eq_some_iff hb).mp hsome).1
      ((h.find_eq_some_iff hb).mp hsome).2⟩

/-! ### The swaps -/

theorem Leads.adjacent (h : cfg.Leads lineAddr stored path) {i : Nat} (hi : i + 1 < path.length) :
    path[i] ∈ cfg.positions (stored path[i + 1]) := by
  induction path generalizing i with
  | nil => exact absurd hi (Nat.not_lt_zero _)
  | cons pos rest ih =>
    cases rest with
    | nil => exact absurd hi (by simp)
    | cons next rest =>
      cases i with
      | zero => exact h.1
      | succ i => exact ih h.2 (Nat.lt_of_succ_lt_succ hi)

theorem Leads.last (h : cfg.Leads lineAddr stored path) {i : Nat} (hi : i < path.length)
    (hlast : i + 1 = path.length) : path[i] ∈ cfg.positions lineAddr := by
  induction path generalizing i with
  | nil => exact absurd hi (Nat.not_lt_zero _)
  | cons pos rest ih =>
    cases rest with
    | nil =>
      obtain rfl : i = 0 := Nat.lt_one_iff.mp hi
      exact h
    | cons next rest =>
      cases i with
      | zero => exact absurd hlast (by simp)
      | succ i => exact ih h.2 (Nat.lt_of_succ_lt_succ hi) (Nat.succ.inj hlast)

/-- Where the swaps take a line of the path from. -/
theorem Leads.formPerm {pos : Nat} {rest : List Nat}
    (h : cfg.Leads lineAddr stored (pos :: rest)) (hnodup : (pos :: rest).Nodup) {p : Nat}
    (hp : p ∈ pos :: rest) :
    ((pos :: rest).formPerm p = pos ∧ p ∈ cfg.positions lineAddr) ∨
    ((pos :: rest).formPerm p ≠ pos ∧ p ∈ cfg.positions (stored ((pos :: rest).formPerm p))) := by
  obtain ⟨i, hi, rfl⟩ := mem_iff_getElem.mp hp
  rw [formPerm_apply_getElem _ hnodup i hi]
  by_cases hnext : i + 1 < (pos :: rest).length
  · simp only [Nat.mod_eq_of_lt hnext]
    refine .inr ⟨fun heq => ?_, h.adjacent hnext⟩
    have hhead : (pos :: rest)[i + 1] = (pos :: rest)[0] := heq
    exact absurd (hnodup.getElem_inj_iff.mp hhead) (Nat.succ_ne_zero i)
  · have hlast : i + 1 = (pos :: rest).length := by omega
    simp only [hlast, Nat.mod_self]
    exact .inl ⟨rfl, h.last hi hlast⟩

/-- What holds of an insertion that waits for `postinsert`. -/
structure Waits (cfg : Config) (z : ZArray) (i : Insertion) : Prop where
  valid : i.lineAddr ≠ 0
  missed : cfg.find i.lineAddr z = none
  wb : z.array i.lineId = i.wbLineAddr
  lt : i.lineId < cfg.numLines
  path : cfg.Path i.lineAddr z i.lineId z.swapArray

variable {i : Insertion}

/-- `postinsert` replaces one address. -/
theorem Inv.postinsert (h : cfg.Inv z) (hi : cfg.Waits z i) :
    ∃ z', postinsert i.lineAddr i.lineId z = some z' ∧ cfg.Inv z' ∧
      z'.array = update z.array i.lineId i.lineAddr := by
  obtain ⟨pos, hhead, hpos⟩ := hi.path.head
  obtain ⟨rest, hpath⟩ := head?_eq_some_iff.mp hhead
  have hleads := hi.path.leads
  have hnodup := hi.path.nodup
  have hinside := hi.path.inside
  rw [hpath] at hleads hnodup hinside
  have hposlt := hinside pos (mem_cons_self ..)
  have hswap : swap (pos :: rest) i.lineId z.lookupArray =
      z.lookupArray ∘ (pos :: rest).formPerm := by
    rw [swap_eq _ hnodup, ← hpos, update_eq_self]
  have hperm : BijOn (pos :: rest).formPerm (Iio cfg.numLines) (Iio cfg.numLines) := by
    refine Equiv.bijOn _ fun p => ?_
    by_cases hp : p ∈ pos :: rest
    · simp only [Set.mem_Iio, hinside p hp, hinside _ (formPerm_apply_mem_of_mem hp)]
    · rw [formPerm_apply_of_notMem hp]
  have hnew := h.perm.comp hperm
  -- a line other than the new one is at the position `pos` no more
  have hother : ∀ {p}, p < cfg.numLines → p ≠ pos → z.lookupArray p ≠ i.lineId :=
    fun hp hne heq => hne (h.perm.injOn hp hposlt (heq.trans hpos.symm))
  refine ⟨_, by rw [ZCache.postinsert, hpath]; simp only [if_pos hpos]; rfl,
    ⟨?_, fun p hp => ?_, fun id hid id' hid' => ?_⟩, rfl⟩
  · rw [← hswap] at hnew
    exact hnew
  · simp only [hswap, comp_apply]
    by_cases hmem : p ∈ pos :: rest
    · rcases hleads.formPerm hnodup hmem with ⟨heq, hseed⟩ | ⟨hne, hplaced⟩
      · rw [heq, hpos, update_self]
        exact fun _ => hseed
      · rw [update_of_ne (hother (hinside _ (formPerm_apply_mem_of_mem hmem)) hne)]
        exact fun _ => hplaced
    · have hne : p ≠ pos := fun heq => hmem (heq ▸ mem_cons_self ..)
      rw [formPerm_apply_of_notMem hmem, update_of_ne (hother hp hne)]
      exact h.placed p hp
  · have hmissed := (h.find_eq_none_iff hi.valid).mp hi.missed
    simp only
    rcases eq_or_ne id i.lineId with rfl | hne <;> rcases eq_or_ne id' i.lineId with rfl | hne'
    · exact fun _ _ => rfl
    · rw [update_self, update_of_ne hne']
      exact fun _ heq => absurd heq.symm (hmissed id' hid')
    · rw [update_self, update_of_ne hne]
      exact fun _ heq => absurd heq (hmissed id hid)
    · rw [update_of_ne hne, update_of_ne hne']
      exact h.once id hid id' hid'

/-! ### Runs -/

theorem init_inv : cfg.Inv init where
  perm := bijOn_id _
  placed _ _ hvalid := absurd rfl hvalid
  once _ _ _ _ hvalid := absurd rfl hvalid

/-- The arrays are as they should be, and so is the insertion that waits. -/
structure Ready (cfg : Config) (s : Calls) : Prop where
  inv : cfg.Inv s.z
  waits : ∀ i ∈ s.pending, cfg.Waits s.z i

variable {s : Calls}

theorem Ready.postinsert (h : cfg.Ready s) (hi : i ∈ s.pending) :
    ∃ s', cfg.step (.postinsert i.lineAddr i.lineId) s = some s' ∧ cfg.Ready s' ∧
      s'.z.array = update s.z.array i.lineId i.lineAddr := by
  obtain ⟨z', hz', hinv, harray⟩ := h.inv.postinsert (h.waits i hi)
  exact ⟨⟨z', none⟩, by rw [step, hz', Option.map_some], ⟨hinv, nofun⟩, harray⟩

/-- A call that is allowed succeeds. -/
theorem Ready.step {op : ZOp} (h : cfg.Ready s) (hok : cfg.Allowed op s) :
    ∃ s', cfg.step op s = some s' ∧ cfg.Ready s' := by
  cases op with
  | lookup lineAddr => exact ⟨s, by rw [Config.step, lookup, if_neg hok, Option.map_some], h⟩
  | preinsert lineAddr bestCandidate =>
    obtain ⟨hlookup, candidates, hcands, cand, hcand, rfl⟩ := hok
    obtain ⟨hvalid, hmissed⟩ : lineAddr ≠ 0 ∧ cfg.find lineAddr s.z = none := by
      simpa [lookup] using hlookup
    obtain ⟨swapArray, idx, hpre, hlt, hpath, -⟩ := h.inv.preinsert hcands hcand
    refine ⟨⟨{ s.z with swapArray := swapArray, lastCandIdx := idx },
      some ⟨lineAddr, cand.lineId, s.z.array cand.lineId⟩⟩,
      by rw [Config.step, hpre, Option.map_some], ⟨h.inv.perm, h.inv.placed, h.inv.once⟩,
      fun i hi => ?_⟩
    obtain rfl := Option.some.inj hi
    exact ⟨hvalid, hmissed, rfl, hlt, ⟨hpath.head, hpath.leads, hpath.nodup, hpath.inside⟩⟩
  | postinsert lineAddr candidate =>
    obtain ⟨i, hi, rfl, rfl⟩ := hok
    obtain ⟨s', hs', hready, -⟩ := h.postinsert hi
    exact ⟨s', hs', hready⟩

/-- In a run the lines stay where their addresses can find them, and an insertion replaces one
address by another. -/
theorem lines_found (ops : List ZOp)
    (h : Along cfg.step cfg.Allowed ops ⟨init, none⟩) :
    ∃ s, run cfg.step ops ⟨init, none⟩ = some s ∧ cfg.Inv s.z ∧
      ∀ i ∈ s.pending, ∃ s', cfg.step (.postinsert i.lineAddr i.lineId) s = some s' ∧
        cfg.lookup i.lineAddr s'.z = some (some i.lineId) ∧
        (i.wbLineAddr ≠ 0 → cfg.lookup i.wbLineAddr s'.z = some none) ∧
        ∀ b ≠ 0, b ≠ i.lineAddr → b ≠ i.wbLineAddr →
          cfg.lookup b s'.z = cfg.lookup b s.z := by
  have hinit : cfg.Ready ⟨init, none⟩ := ⟨init_inv, nofun⟩
  obtain ⟨s, hrun, hready⟩ := run_keeps (fun op s hs hok => hs.step hok) ops hinit h
  refine ⟨s, hrun, hready.inv, fun i hi => ?_⟩
  obtain ⟨s', hs', hready', harray⟩ := hready.postinsert hi
  obtain ⟨hvalid, hmissed, hwb, hlt, -⟩ := hready.waits i hi
  refine ⟨s', hs', ?_, fun hne => ?_, fun b hb hnew hold => ?_⟩
  · rw [lookup, if_neg hvalid, (hready'.inv.find_eq_some_iff hvalid).mpr ⟨hlt, ?_⟩]
    rw [harray, update_self]
  · rw [lookup, if_neg hne, (hready'.inv.find_eq_none_iff hne).mpr fun id hid heq => ?_]
    rw [harray] at heq
    rcases eq_or_ne id i.lineId with rfl | hid'
    · rw [update_self] at heq
      exact (hready.inv.find_eq_none_iff hvalid).mp hmissed _ hid (hwb.trans heq.symm)
    · rw [update_of_ne hid'] at heq
      exact hid' (hready.inv.once id hid _ hlt (heq ▸ hne) (heq.trans hwb.symm))
  · have hsame : ∀ id, s'.z.array id = b ↔ s.z.array id = b := fun id => by
      rw [harray]
      rcases eq_or_ne id i.lineId with rfl | hid
      · simp [hnew.symm, hwb, hold.symm]
      · rw [update_of_ne hid]
    rw [lookup, lookup, if_neg hb, if_neg hb]
    congr 1
    refine Option.ext fun id => ?_
    simp only [hready'.inv.find_eq_some_iff hb, hready.inv.find_eq_some_iff hb, hsame]

/-- Two ways of two sets. -/
def sample : Config where
  numLines := 4
  ways := 2
  cands := 4
  hash w lineAddr := lineAddr >>> w.toUInt64
  two_le := by decide
  le_cands := by decide
  dvd := by decide
  pow2 := by decide

def sampleOps : List ZOp :=
  [.lookup 1, .preinsert 1 1, .lookup 1, .postinsert 1 1, .preinsert 3 3, .postinsert 3 3,
    .preinsert 5 2, .postinsert 5 2, .preinsert 4 0, .postinsert 4 0, .preinsert 7 2, .lookup 5]

/-- The line of the address 1 comes to the position of the address 5, which 7 replaces. -/
theorem lines_found_sample :
    ∃ s s', run sample.step sampleOps ⟨init, none⟩ = some s ∧
      sample.step (.postinsert 7 2) s = some s' ∧ sample.lookup 7 s'.z = some (some 2) ∧
      sample.lookup 5 s'.z = some none ∧ sample.lookup 1 s'.z = sample.lookup 1 s.z := by
  obtain ⟨s, hrun, -, hfound⟩ := lines_found sampleOps (by decide +kernel : Along sample.step
    sample.Allowed sampleOps ⟨init, none⟩)
  have hpending : (run sample.step sampleOps ⟨init, none⟩).bind Calls.pending =
      some ⟨7, 2, 5⟩ := by decide +kernel
  rw [hrun] at hpending
  obtain ⟨s', hs', hnew, hold, hsame⟩ := hfound _ hpending
  exact ⟨s, s', hrun, hs', hnew, hold (by decide), hsame 1 (by decide) (by decide) (by decide)⟩

/-- In arrays as the calls leave them `preinsert` has candidates, and each choice of one gives a
path from its line to a seed.  The line at each later position has the position before it as one of
its own. -/
theorem preinsert_path (h : cfg.Inv z) (lineAddr : Address) :
    ∃ candidates, cfg.candidates lineAddr z = some candidates ∧ candidates ≠ [] ∧
      ∀ cand ∈ candidates, ∃ swapArray idx,
        cfg.preinsert lineAddr cand.lineId z = some (cand.lineId, z.array cand.lineId,
          { z with swapArray := swapArray, lastCandIdx := idx }) ∧
        swapArray.length ≤ cfg.cands / cfg.ways + 2 ∧ swapArray.Nodup ∧
        (∃ pos ∈ swapArray.head?, z.lookupArray pos = cand.lineId) ∧
        (∃ pos ∈ swapArray.getLast?, pos ∈ cfg.positions lineAddr) ∧
        ∀ i pos next, swapArray[i]? = some pos → swapArray[i + 1]? = some next →
          z.array (z.lookupArray next) ≠ 0 ∧
          pos ∈ cfg.positions (z.array (z.lookupArray next)) := by
  obtain ⟨s, hcands, hwalked⟩ := candidates_eq h lineAddr
  have hsome : s.candidates.take cfg.cands ≠ [] := by
    have hgrown := hwalked.grown
    have htwo := cfg.two_le
    have hle := cfg.le_cands
    rw [← length_pos_iff, length_take]
    omega
  refine ⟨_, hcands, hsome, fun cand hcand => ?_⟩
  obtain ⟨swapArray, idx, hpre, -, hpath, hlen, hlive⟩ := h.preinsert hcands hcand
  refine ⟨swapArray, idx, hpre, hlen, hpath.nodup, hpath.head, ?_, fun i pos next hpos hnext => ?_⟩
  · obtain ⟨first, hhead, -⟩ := hpath.head
    obtain ⟨rest, rfl⟩ := head?_eq_some_iff.mp hhead
    have hi : rest.length < (first :: rest).length := Nat.lt_succ_self _
    have hlast : (first :: rest).getLast? = some (first :: rest)[rest.length] := by
      rw [getLast?_eq_getElem?, length_cons, Nat.add_sub_cancel, getElem?_eq_getElem hi]
    exact ⟨_, hlast, hpath.leads.last hi rfl⟩
  · obtain ⟨hi, rfl⟩ := List.getElem?_eq_some_iff.mp hnext
    obtain ⟨-, rfl⟩ := List.getElem?_eq_some_iff.mp hpos
    refine ⟨hlive _ ?_, hpath.leads.adjacent hi⟩
    rw [← drop_one]
    exact mem_drop_iff_getElem.mpr ⟨i, by omega, by simp only [Nat.add_comm]⟩

/-- The address 6 has its seeds at full lines, and may replace any of three. -/
theorem preinsert_path_sample :
    ∃ s candidates, run sample.step sampleOps ⟨init, none⟩ = some s ∧
      sample.candidates 6 s.z = some candidates ∧ candidates ≠ [] ∧
      ∀ cand ∈ candidates, ∃ r ∈ sample.preinsert 6 cand.lineId s.z,
        r.2.2.swapArray.length ≤ 4 ∧ r.2.2.swapArray.Nodup := by
  obtain ⟨s, hrun, hready⟩ := run_keeps (fun op s hs hok => Ready.step hs hok) sampleOps
    (⟨init_inv, nofun⟩ : sample.Ready ⟨init, none⟩)
    (by decide +kernel : Along sample.step sample.Allowed sampleOps ⟨init, none⟩)
  obtain ⟨candidates, hcands, hsome, hpaths⟩ := preinsert_path hready.inv 6
  refine ⟨s, candidates, hrun, hcands, hsome, fun cand hcand => ?_⟩
  obtain ⟨swapArray, idx, hpre, hlen, hnodup, -⟩ := hpaths cand hcand
  exact ⟨_, hpre, hlen, hnodup⟩

end Config

end Doppelganger.ZCache
