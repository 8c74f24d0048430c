import Doppelganger.ZCache.ZArray
import Mathlib.Data.Set.Function
import Mathlib.Order.Interval.Set.Defs

/-! The walk of `preinsert`.  The line of a fringe candidate that was seen before has the same
positions as the first time, and those are found sooner.  So the first candidate of a line comes
from the first one of its parent, and the positions up to a seed are distinct. -/

namespace Doppelganger.ZCache

open Function List Set

/-- The seeds come before the others, which are in the order of their parents. -/
def ZWalkInfo.rank (cand : ZWalkInfo) : Nat := cand.parentIdx.elim 0 (· + 1)

namespace Config

variable (cfg : Config)

/-- What holds of the arrays between the calls: each line is at one position, which is one of those
of its address, and no address is there twice. -/
structure Inv (z : ZArray) : Prop where
  perm : BijOn z.lookupArray (Iio cfg.numLines) (Iio cfg.numLines)
  placed : ∀ pos < cfg.numLines, z.array (z.lookupArray pos) ≠ 0 →
    pos ∈ cfg.positions (z.array (z.lookupArray pos))
  once : ∀ id < cfg.numLines, ∀ id' < cfg.numLines, z.array id ≠ 0 →
    z.array id = z.array id' → id = id'

/-! ### Positions -/

variable {cfg} {lineAddr : Address} {z : ZArray} {s : Walk} {fringe : ZWalkInfo}

theorem numSets_pos : 0 < cfg.numSets := isPow2_pos cfg.pow2

theorem masked_lt (lineAddr : Address) (w : Nat) :
    (cfg.hash w lineAddr).toNat &&& cfg.setMask < cfg.numSets := by
  have hle : (cfg.hash w lineAddr).toNat &&& cfg.setMask ≤ cfg.setMask := Nat.and_le_right
  have hpos := cfg.numSets_pos
  rw [setMask] at hle ⊢
  omega

theorem position_lt (lineAddr : Address) {w : Nat} (hw : w < cfg.ways) :
    cfg.position w lineAddr < cfg.numLines := by
  have hlt := cfg.masked_lt lineAddr w
  have hlines : cfg.ways * cfg.numSets = cfg.numLines :=
    Nat.mul_div_cancel' (Nat.dvd_of_mod_eq_zero cfg.dvd)
  calc cfg.position w lineAddr < w * cfg.numSets + cfg.numSets := Nat.add_lt_add_left hlt _
    _ = (w + 1) * cfg.numSets := (Nat.succ_mul ..).symm
    _ ≤ cfg.ways * cfg.numSets := Nat.mul_le_mul_right _ hw
    _ = cfg.numLines := hlines

theorem lt_of_mem_positions {pos : Nat} (h : pos ∈ cfg.positions lineAddr) :
    pos < cfg.numLines := by
  obtain ⟨w, hw, rfl⟩ := mem_map.mp h
  exact position_lt lineAddr (mem_range.mp hw)

theorem length_positions : (cfg.positions lineAddr).length = cfg.ways := by
  simp [positions]

theorem position_div (w : Nat) : cfg.position w lineAddr / cfg.numSets = w := by
  rw [position, Nat.mul_comm, Nat.mul_add_div cfg.numSets_pos,
    Nat.div_eq_of_lt (cfg.masked_lt lineAddr w), Nat.add_zero]

/-- The positions of an address do not all have the same line. -/
theorem Inv.exists_ne (h : cfg.Inv z) (lineAddr : Address) (lineId : Nat) :
    ∃ pos ∈ cfg.positions lineAddr, z.lookupArray pos ≠ lineId := by
  have h0 : 0 < cfg.ways := Nat.lt_of_succ_lt cfg.two_le
  by_contra hall
  simp only [not_exists, not_and, not_not] at hall
  have heq : ∀ w < cfg.ways, z.lookupArray (cfg.position w lineAddr) = lineId :=
    fun w hw => hall _ (mem_map_of_mem (mem_range.mpr hw))
  have hsame := h.perm.injOn (position_lt lineAddr h0) (position_lt lineAddr cfg.two_le)
    ((heq 0 h0).trans (heq 1 cfg.two_le).symm)
  have hdiv := congrArg (· / cfg.numSets) hsame
  simp only [position_div] at hdiv
  exact absurd hdiv (by decide)

/-! ### The loop -/

variable (cfg) in
/-- The candidates that a round adds. -/
def children (z : ZArray) (fringeStart : Nat) (fringe : ZWalkInfo) : List ZWalkInfo :=
  ((cfg.positions (z.array fringe.lineId)).map fun pos =>
    ZWalkInfo.mk pos (z.lookupArray pos) (some fringeStart)).filter
      fun cand => cand.lineId ≠ fringe.lineId

theorem mem_children {p : Nat} {cand : ZWalkInfo} : cand ∈ cfg.children z p fringe ↔
    cand.pos ∈ cfg.positions (z.array fringe.lineId) ∧ cand.lineId = z.lookupArray cand.pos ∧
      cand.parentIdx = some p ∧ cand.lineId ≠ fringe.lineId := by
  obtain ⟨pos, lineId, parentIdx⟩ := cand
  simp only [children, mem_filter, mem_map, ZWalkInfo.mk.injEq, decide_eq_true_eq]
  constructor
  · rintro ⟨⟨pos', hpos, rfl, rfl, rfl⟩, hne⟩
    exact ⟨hpos, rfl, rfl, hne⟩
  · rintro ⟨hpos, rfl, rfl, hne⟩
    exact ⟨⟨pos, hpos, rfl, rfl, rfl⟩, hne⟩

theorem foldlM_expandPos : ∀ (poss : List Nat) (s : Walk),
    s.candidates.length + poss.length ≤ cfg.cands + cfg.ways →
      poss.foldlM (cfg.expandPos z fringe) s = some { s with
        candidates := s.candidates ++ (poss.map fun pos =>
          ZWalkInfo.mk pos (z.lookupArray pos) (some s.fringeStart)).filter
            fun cand => cand.lineId ≠ fringe.lineId
        allValid := s.allValid && poss.all fun pos => z.array (z.lookupArray pos) ≠ 0 }
  | [], s, _ => by simp
  | pos :: poss, s, hlen => by
    rw [length_cons] at hlen
    have hroom : s.candidates.length < cfg.cands + cfg.ways := by omega
    simp only [foldlM_cons, expandPos, if_pos hroom, Option.bind_eq_bind, Option.bind_some]
    by_cases hself : z.lookupArray pos = fringe.lineId
    · rw [foldlM_expandPos poss _ (by simp [hself]; omega)]
      simp [hself, Bool.and_assoc]
    · rw [foldlM_expandPos poss _ (by simp [hself]; omega)]
      simp [hself, Bool.and_assoc]

variable (cfg lineAddr z s) in
/-- What holds before each round: the candidates before `fringeStart` are the ones whose positions
were all looked at. -/
structure Walked : Prop where
  line : ∀ cand ∈ s.candidates, cand.pos < cfg.numLines ∧ cand.lineId = z.lookupArray cand.pos
  seed : ∀ cand ∈ s.candidates, cand.parentIdx = none → cand.pos ∈ cfg.positions lineAddr
  child : ∀ i, ∀ cand ∈ s.candidates[i]?, ∀ p ∈ cand.parentIdx,
    p < s.fringeStart ∧ p + cfg.ways ≤ i ∧ ∃ parent ∈ s.candidates[p]?,
      cand.pos ∈ cfg.positions (z.array parent.lineId) ∧ cand.lineId ≠ parent.lineId
  ordered : s.candidates.Pairwise fun cand cand' => cand.rank ≤ cand'.rank
  closed : ∀ p < s.fringeStart, ∀ parent ∈ s.candidates[p]?,
    ∀ pos ∈ cfg.positions (z.array parent.lineId), z.lookupArray pos ≠ parent.lineId →
      ∃ cand ∈ s.candidates, cand.pos = pos ∧ cand.parentIdx = some p
  grown : s.fringeStart + cfg.ways ≤ s.candidates.length
  live : ∀ p < s.fringeStart, ∀ parent ∈ s.candidates[p]?, z.array parent.lineId ≠ 0
  valid : s.allValid = true → ∀ cand ∈ s.candidates, z.array cand.lineId ≠ 0

theorem seeds_walked : cfg.Walked lineAddr z (cfg.seeds lineAddr z) where
  line cand hcand := by
    obtain ⟨pos, hpos, rfl⟩ := mem_map.mp hcand
    exact ⟨lt_of_mem_positions hpos, rfl⟩
  seed cand hcand _ := by
    obtain ⟨pos, hpos, rfl⟩ := mem_map.mp hcand
    exact hpos
  child i cand hcand p hp := by
    obtain ⟨pos, -, rfl⟩ := mem_map.mp (mem_of_getElem? hcand)
    exact nomatch hp
  ordered := pairwise_map.mpr (pairwise_of_forall fun _ _ => Nat.le_refl 0)
  closed p hp := absurd hp (Nat.not_lt_zero p)
  grown := by simp [seeds, length_positions]
  live p hp := absurd hp (Nat.not_lt_zero p)
  valid hall cand hcand := by simpa using all_eq_true.mp hall cand hcand

theorem Walked.rank_le (h : cfg.Walked lineAddr z s) {cand : ZWalkInfo}
    (hcand : cand ∈ s.candidates) : cand.rank ≤ s.fringeStart := by
  obtain ⟨i, hi⟩ := mem_iff_getElem?.mp hcand
  cases hp : cand.parentIdx with
  | none => simp [ZWalkInfo.rank, hp]
  | some p =>
    have hlt := (h.child i cand hi p hp).1
    rwa [ZWalkInfo.rank, hp]

variable (cfg z s fringe) in
/-- The candidates after the round of `fringe`. -/
def expanded : Walk where
  candidates := s.candidates ++ cfg.children z s.fringeStart fringe
  allValid := s.allValid &&
    (cfg.positions (z.array fringe.lineId)).all fun pos => z.array (z.lookupArray pos) ≠ 0
  fringeStart := s.fringeStart + 1

theorem expand_eq (hget : s.candidates[s.fringeStart]? = some fringe)
    (haddr : z.array fringe.lineId ≠ 0) (hlt : s.candidates.length < cfg.cands) :
    cfg.expand z s = some (cfg.expanded z s fringe) := by
  rw [Config.expand, hget, Option.bind_some, if_pos haddr,
    foldlM_expandPos _ _ (by rw [length_positions]; omega)]
  rfl

/-- The fringe's line has another position than the one it is at. -/
theorem Inv.children_pos (h : cfg.Inv z) (p : Nat) (fringe : ZWalkInfo) :
    0 < (cfg.children z p fringe).length := by
  obtain ⟨pos, hpos, hother⟩ := h.exists_ne (z.array fringe.lineId) fringe.lineId
  have hmem : ZWalkInfo.mk pos (z.lookupArray pos) (some p) ∈ cfg.children z p fringe :=
    mem_children.mpr ⟨hpos, rfl, rfl, hother⟩
  exact length_pos_of_mem hmem

/-- A round adds the other lines at the positions of the fringe's line. -/
theorem Walked.expanded (h : cfg.Walked lineAddr z s) (hz : cfg.Inv z)
    (hget : s.candidates[s.fringeStart]? = some fringe) (hvalid : s.allValid = true) :
    cfg.Walked lineAddr z (cfg.expanded z s fringe) where
  line cand hcand := by
    rcases mem_append.mp hcand with hcand | hcand
    · exact h.line cand hcand
    · obtain ⟨hpos, hline, -⟩ := mem_children.mp hcand
      exact ⟨lt_of_mem_positions hpos, hline⟩
  seed cand hcand hnone := by
    rcases mem_append.mp hcand with hcand | hcand
    · exact h.seed cand hcand hnone
    · exact absurd ((mem_children.mp hcand).2.2.1.symm.trans hnone) nofun
  child i cand hcand p hp := by
    obtain ⟨hfringe, -⟩ := List.getElem?_eq_some_iff.mp hget
    have hgrown := h.grown
    simp only [Config.expanded] at hcand ⊢
    by_cases hi : i < s.candidates.length
    · rw [getElem?_append_left hi] at hcand
      obtain ⟨hpf, hle, parent, hparent, hchild⟩ := h.child i cand hcand p hp
      have hps : p < s.candidates.length := by omega
      exact ⟨Nat.lt_succ_of_lt hpf, hle, parent, by rwa [getElem?_append_left hps], hchild⟩
    · rw [getElem?_append_right (Nat.le_of_not_lt hi)] at hcand
      obtain ⟨hpos, -, hparent, hne⟩ := mem_children.mp (mem_of_getElem? hcand)
      obtain rfl := Option.some.inj (hparent.symm.trans hp)
      exact ⟨Nat.lt_succ_self _, by omega, fringe, by rwa [getElem?_append_left hfringe], hpos, hne⟩
  ordered := by
    refine pairwise_append.mpr ⟨h.ordered, ?_, fun cand hcand cand' hcand' => ?_⟩
    · refine pairwise_of_forall_mem_list fun cand hcand cand' hcand' => ?_
      simp [ZWalkInfo.rank, (mem_children.mp hcand).2.2.1, (mem_children.mp hcand').2.2.1]
    · have hle := h.rank_le hcand
      simp only [ZWalkInfo.rank, (mem_children.mp hcand').2.2.1] at hle ⊢
      exact Nat.le_succ_of_le hle
  closed p hp parent hparent pos hpos hne := by
    obtain ⟨hfringe, -⟩ := List.getElem?_eq_some_iff.mp hget
    simp only [Config.expanded] at hparent ⊢
    rcases Nat.lt_succ_iff_lt_or_eq.mp hp with hp | rfl
    · rw [getElem?_append_left (hp.trans hfringe)] at hparent
      obtain ⟨cand, hcand, hat⟩ := h.closed p hp parent hparent pos hpos hne
      exact ⟨cand, mem_append_left _ hcand, hat⟩
    · rw [getElem?_append_left hfringe, hget] at hparent
      obtain rfl := Option.some.inj hparent
      have hnew : ZWalkInfo.mk pos (z.lookupArray pos) (some s.fringeStart) ∈
          cfg.children z s.fringeStart fringe := mem_children.mpr ⟨hpos, rfl, rfl, hne⟩
      exact ⟨_, mem_append_right _ hnew, rfl, rfl⟩
  grown := by
    have hgrown := h.grown
    have hadded := hz.children_pos s.fringeStart fringe
    simp only [Config.expanded, length_append]
    omega
  live p hp parent hparent := by
    obtain ⟨hfringe, -⟩ := List.getElem?_eq_some_iff.mp hget
    simp only [Config.expanded] at hparent
    rcases Nat.lt_succ_iff_lt_or_eq.mp hp with hp | rfl
    · rw [getElem?_append_left (hp.trans hfringe)] at hparent
      exact h.live p hp parent hparent
    · rw [getElem?_append_left hfringe, hget] at hparent
      obtain rfl := Option.some.inj hparent
      exact h.valid hvalid fringe (mem_of_getElem? hget)
  valid hall cand hcand := by
    obtain ⟨-, hnew⟩ := Bool.and_eq_true_iff.mp hall
    rcases mem_append.mp hcand with hcand | hcand
    · exact h.valid hvalid cand hcand
    · obtain ⟨hpos, hline, -⟩ := mem_children.mp hcand
      rw [hline]
      simpa using all_eq_true.mp hnew _ hpos

theorem Walked.expand (h : cfg.Walked lineAddr z s) (hz : cfg.Inv z)
    (hlt : s.candidates.length < cfg.cands) (hvalid : s.allValid = true) :
    ∃ s', cfg.expand z s = some s' ∧ cfg.Walked lineAddr z s' ∧
      s.candidates.length < s'.candidates.length := by
  have hfringe : s.fringeStart < s.candidates.length := by
    have hgrown := h.grown
    have htwo := cfg.two_le
    omega
  obtain ⟨fringe, hget⟩ : ∃ fringe, s.candidates[s.fringeStart]? = some fringe :=
    ⟨_, getElem?_eq_getElem hfringe⟩
  have haddr := h.valid hvalid fringe (mem_of_getElem? hget)
  refine ⟨_, expand_eq hget haddr hlt, h.expanded hz hget hvalid, ?_⟩
  have hadded := hz.children_pos s.fringeStart fringe
  rw [Config.expanded, length_append]
  omega

/-- The walk ends, and with an invalid candidate or all candidates. -/
theorem Walked.walk (hz : cfg.Inv z) (h : cfg.Walked lineAddr z s) {fuel : Nat}
    (hfuel : cfg.cands ≤ fuel + s.candidates.length) :
    ∃ s', cfg.walk z (fuel + 1) s = some s' ∧ cfg.Walked lineAddr z s' ∧
      (s'.allValid = true → cfg.cands ≤ s'.candidates.length) := by
  induction fuel generalizing s with
  | zero =>
    have hstop : ¬(s.candidates.length < cfg.cands ∧ s.allValid = true) := by omega
    exact ⟨s, by rw [Config.walk, if_neg hstop], h, fun _ => by omega⟩
  | succ fuel ih =>
    by_cases hgo : s.candidates.length < cfg.cands ∧ s.allValid = true
    · obtain ⟨s1, hexpand, h1, hadded⟩ := h.expand hz hgo.1 hgo.2
      obtain ⟨s', hwalk, h', hall⟩ := ih h1 (by omega)
      exact ⟨s', by rw [Config.walk, if_pos hgo, hexpand, Option.bind_some, hwalk], h', hall⟩
    · exact ⟨s, by rw [Config.walk, if_neg hgo], h, fun hvalid => Nat.le_of_not_lt fun hlt =>
        hgo ⟨hlt, hvalid⟩⟩

/-- `preinsert` has candidates, and they are the first ones of a walk. -/
theorem candidates_eq (hz : cfg.Inv z) (lineAddr : Address) :
    ∃ s, cfg.candidates lineAddr z = some (s.candidates.take cfg.cands) ∧
      cfg.Walked lineAddr z s := by
  have htwo := cfg.two_le
  have hle := cfg.le_cands
  have hlen : (cfg.seeds lineAddr z).candidates.length = cfg.ways := by
    simp [seeds, length_positions]
  have hfuel : cfg.cands ≤ cfg.cands - 1 + (cfg.seeds lineAddr z).candidates.length := by omega
  obtain ⟨s, hwalk, h, hall⟩ := seeds_walked.walk hz hfuel
  rw [Nat.sub_add_cancel (by omega)] at hwalk
  exact ⟨s, by rw [candidates, hwalk, Option.bind_some, if_pos hall], h⟩

/-! ### The way up to a seed -/

/-- The candidate `i` is the first one at its position. -/
def First (candidates : List ZWalkInfo) (i : Nat) : Prop :=
  ∀ cand ∈ candidates[i]?, ∀ j < i, ∀ cand' ∈ candidates[j]?, cand'.pos ≠ cand.pos

/-- The parent of a first candidate is a first one: had its line been in the fringe before, so had
its children. -/
theorem Walked.first_parent (h : cfg.Walked lineAddr z s) {i p : Nat} {cand : ZWalkInfo}
    (hcand : s.candidates[i]? = some cand) (hp : cand.parentIdx = some p)
    (hfirst : First s.candidates i) : First s.candidates p := by
  intro parent hparent j hj twin htwin hsame
  obtain ⟨hpf, -, parent', hparent', hpos, hne⟩ := h.child i cand hcand p hp
  obtain rfl := Option.some.inj (hparent.symm.trans hparent')
  obtain ⟨-, hline⟩ := h.line cand (mem_of_getElem? hcand)
  obtain ⟨-, hlinep⟩ := h.line parent (mem_of_getElem? hparent)
  obtain ⟨-, hlinej⟩ := h.line twin (mem_of_getElem? htwin)
  have htwinline : twin.lineId = parent.lineId := by rw [hlinej, hsame, hlinep]
  -- the earlier candidate of the parent's line has a child at the same position
  obtain ⟨early, hearly, hat, hfrom⟩ := h.closed j (hj.trans hpf) twin htwin cand.pos
    (htwinline ▸ hpos) (by rwa [htwinline, ← hline])
  obtain ⟨k, hk⟩ := mem_iff_getElem?.mp hearly
  refine hfirst cand hcand k (Nat.lt_of_not_le fun hik => ?_) early hk hat
  have hrank : cand.rank ≤ early.rank := by
    rcases Nat.eq_or_lt_of_le hik with rfl | hik
    · obtain rfl := Option.some.inj (hcand.symm.trans hk)
      exact Nat.le_refl _
    · obtain ⟨hi', rfl⟩ := List.getElem?_eq_some_iff.mp hcand
      obtain ⟨hk', rfl⟩ := List.getElem?_eq_some_iff.mp hk
      exact pairwise_iff_getElem.mp h.ordered i k hi' hk' hik
  simp only [ZWalkInfo.rank, hp, hfrom, Option.elim] at hrank
  omega

variable (cfg lineAddr) in
/-- Each position is one of those of the address at the next one, and the last one is a seed. -/
def Leads (stored : Nat → Address) : List Nat → Prop
  | [] => False
  | [pos] => pos ∈ cfg.positions lineAddr
  | pos :: next :: rest => pos ∈ cfg.positions (stored next) ∧ Leads stored (next :: rest)

/-- The swaps from a first candidate. -/
theorem Walked.swaps (h : cfg.Walked lineAddr z s) {n room i : Nat} {cand : ZWalkInfo}
    (hcand : s.candidates[i]? = some cand) (hn : i < n) (hroom : i < room * cfg.ways)
    (hfirst : First s.candidates i) :
    ∃ rest, swaps (s.candidates.take n) room (some i) = some (cand.pos :: rest) ∧
      cfg.Leads lineAddr (z.array ∘ z.lookupArray) (cand.pos :: rest) ∧ (cand.pos :: rest).Nodup ∧
      (∀ pos ∈ cand.pos :: rest, ∃ j ≤ i, ∃ cand' ∈ s.candidates[j]?, cand'.pos = pos) ∧
      rest.length < room ∧ ∀ pos ∈ rest, z.array (z.lookupArray pos) ≠ 0 := by
  induction room generalizing i cand with
  | zero => omega
  | succ room ih =>
    have hget : (s.candidates.take n)[i]? = some cand := by rw [getElem?_take_of_lt hn, hcand]
    rw [Config.swaps, hget, Option.bind_some]
    cases hp : cand.parentIdx with
    | none =>
      refine ⟨[], by cases room <;> rfl, h.seed cand (mem_of_getElem? hcand) hp, by simp, ?_,
        Nat.succ_pos room, nofun⟩
      simpa using ⟨i, Nat.le_refl i, cand, hcand, rfl⟩
    | some p =>
      obtain ⟨hpf, hle, parent, hparent, hpos, -⟩ := h.child i cand hcand p hp
      have hlinep := (h.line parent (mem_of_getElem? hparent)).2
      have htwo := cfg.two_le
      rw [Nat.succ_mul] at hroom
      obtain ⟨rest, hswaps, hleads, hnodup, hmem, hlen, hlive⟩ := ih hparent (by omega) (by omega)
        (h.first_parent hcand hp hfirst)
      refine ⟨parent.pos :: rest, by rw [hswaps]; rfl, ⟨by rwa [comp_apply, ← hlinep], hleads⟩,
        nodup_cons.mpr ⟨fun hin => ?_, hnodup⟩, fun pos hin => ?_, Nat.succ_lt_succ hlen,
        forall_mem_cons.mpr ⟨hlinep ▸ h.live p hpf parent hparent, hlive⟩⟩
      · obtain ⟨j, hj, cand', hcand', heq⟩ := hmem _ hin
        exact hfirst cand hcand j (by omega) cand' hcand' heq
      · rcases mem_cons.mp hin with rfl | hin
        · exact ⟨i, Nat.le_refl i, cand, hcand, rfl⟩
        · obtain ⟨j, hj, hj'⟩ := hmem pos hin
          exact ⟨j, by omega, hj'⟩

variable (cfg lineAddr z) in
/-- The positions that `postinsert` swaps, from that of the line that is replaced to a seed. -/
structure Path (lineId : Nat) (swapArray : List Nat) : Prop where
  head : ∃ pos ∈ swapArray.head?, z.lookupArray pos = lineId
  leads : cfg.Leads lineAddr (z.array ∘ z.lookupArray) swapArray
  nodup : swapArray.Nodup
  inside : ∀ pos ∈ swapArray, pos < cfg.numLines

/-- `preinsert` succeeds for each choice of a candidate. -/
theorem Inv.preinsert (h : cfg.Inv z) {candidates : List ZWalkInfo}
    (hcands : cfg.candidates lineAddr z = some candidates) {cand : ZWalkInfo}
    (hcand : cand ∈ candidates) :
    ∃ swapArray idx, cfg.preinsert lineAddr cand.lineId z = some (cand.lineId, z.array cand.lineId,
        { z with swapArray := swapArray, lastCandIdx := idx }) ∧
      cand.lineId < cfg.numLines ∧ cfg.Path lineAddr z cand.lineId swapArray ∧
      swapArray.length ≤ cfg.cands / cfg.ways + 2 ∧
      ∀ pos ∈ swapArray.tail, z.array (z.lookupArray pos) ≠ 0 := by
  obtain ⟨s, hs, hwalked⟩ := candidates_eq h lineAddr
  obtain rfl := Option.some.inj (hs.symm.trans hcands)
  obtain ⟨hpos, hline⟩ := hwalked.line cand (mem_of_mem_take hcand)
  have hlt : cand.lineId < cfg.numLines := hline ▸ h.perm.mapsTo hpos
  obtain ⟨i, hfind⟩ : ∃ i, (s.candidates.take cfg.cands).findIdx? (·.lineId = cand.lineId) =
      some i := by
    rw [← Option.isSome_iff_exists, findIdx?_isSome]
    exact any_eq_true.mpr ⟨cand, hcand, decide_eq_true rfl⟩
  obtain ⟨hi, hsame, hmin⟩ := findIdx?_eq_some_iff_getElem.mp hfind
  have hn : i < cfg.cands := Nat.lt_of_lt_of_le hi (length_take_le ..)
  have hget : s.candidates[i]? = some (s.candidates.take cfg.cands)[i] := by
    rw [← getElem?_take_of_lt hn, getElem?_eq_getElem hi]
  have hsame := of_decide_eq_true hsame
  have hfirst : First s.candidates i := by
    intro best hbest j hj twin htwin hat
    obtain rfl := Option.some.inj (hbest.symm.trans hget)
    refine hmin j hj (decide_eq_true ?_)
    have htwin' : (s.candidates.take cfg.cands)[j] = twin := by
      rw [← Option.some.injEq, ← getElem?_eq_getElem, getElem?_take_of_lt (hj.trans hn), htwin]
    rw [htwin', (hwalked.line twin (mem_of_getElem? htwin)).2, hat,
      ← (hwalked.line _ (mem_of_getElem? hget)).2, hsame]
  have hroom : i < (cfg.cands / cfg.ways + 2) * cfg.ways := by
    have hdiv := Nat.lt_div_mul_add (a := cfg.cands) (Nat.lt_of_succ_lt cfg.two_le)
    rw [Nat.add_mul]
    omega
  obtain ⟨rest, hswaps, hleads, hnodup, hmem, hlen, hlive⟩ := hwalked.swaps hget hn hroom hfirst
  refine ⟨_, i, ?_, hlt, ⟨⟨_, rfl, ?_⟩, hleads, hnodup, fun pos hin => ?_⟩, hlen, hlive⟩
  · rw [Config.preinsert, hcands, Option.bind_some, if_pos hlt, hfind, Option.bind_some, hswaps]
    rfl
  · rw [← (hwalked.line _ (mem_of_getElem? hget)).2, hsame]
  · obtain ⟨j, -, cand', hcand', rfl⟩ := hmem pos hin
    exact (hwalked.line cand' (mem_of_getElem? hcand')).1

end Config

end Doppelganger.ZCache
