import Doppelganger.Part.WayPart

/-! Ways isolate the partitions of `WayPartReplPolicy`: while the ways stay assigned, the lines that
a partition has in the ways of others only get fewer. -/

namespace Doppelganger.Part

open Lib Function

namespace WayPartRepl

variable {s s' : WayPartRepl} {part addr set id : ℕ}

/-- The lines of way `way` that are not of the way's partition. -/
def foreign (s : WayPartRepl) (way : ℕ) : ℕ :=
  tally (s.totalSize.toNat / s.ways.toNat)
    (fun set => decide (s.wayPartIndex[way]? = some (s.array (set * s.ways.toNat + way)).p)) false

/-- What the cache array calls between two assignments: hits are on lines of the cache, each
ranking is of a set, and each insertion of the victim ranked before. -/
def Calls : WayPartOp → WayPartRepl → Prop
  | .update id, s => 0 < (s.array id).ts
  | .rank part _ cands, s => part < s.partitions ∧
      ∃ set < s.totalSize.toNat / s.ways.toNat, cands = setCands s.ways.toNat set
  | .insert id, s => s.bestId = some id
  | .setPartitionSizes _, _ => False

/-- A way-partitioned cache, in which a victim that is still to be replaced is in a way of the
incoming line's partition. -/
structure Placed (s : WayPartRepl) : Prop where
  testMode : s.testMode = false
  index : s.wayPartIndex.length = s.ways.toNat
  owns : ∀ p < s.partitions, p ∈ s.wayPartIndex
  victim : ∀ id, s.bestId = some id → ∃ set < s.totalSize.toNat / s.ways.toNat,
    s.InWays s.incomingLinePart set id

theorem line_inj {ways set set' way way' : ℕ} (hway : way < ways) (hway' : way' < ways)
    (h : set * ways + way = set' * ways + way') : set = set' ∧ way = way' := by
  have hset : ∀ set way : ℕ, way < ways → (set * ways + way) / ways = set := by
    intro set way hlt
    rw [Nat.mul_comm, Nat.mul_add_div (Nat.zero_lt_of_lt hlt), Nat.div_eq_of_lt hlt, Nat.add_zero]
  have heq : set = set' := by rw [← hset set way hway, h, hset set' way' hway']
  subst heq
  exact ⟨rfl, Nat.add_left_cancel h⟩

/-- Lines that stay in their partitions keep the numbers of foreign lines. -/
theorem foreign_same {way : ℕ} (hpolicy : s'.toWayPartReplPolicy = s.toWayPartReplPolicy)
    (hp : ∀ i, (s'.array i).p = (s.array i).p) : s'.foreign way = s.foreign way := by
  unfold foreign
  rw [hpolicy]
  apply tally_congr
  intro set _
  rw [hp]

/-- A line that its way's partition gets is not foreign any more. -/
theorem Gives.foreign_le {q way : ℕ} (h : s.Gives id q s') (hway : way < s.ways.toNat)
    (hset : set < s.totalSize.toNat / s.ways.toNat) (hin : s.InWays q set id)
    (hindex : s.wayPartIndex.length = s.ways.toNat) : s'.foreign way ≤ s.foreign way := by
  obtain ⟨way', hq, rfl⟩ := hin
  have hway' : way' < s.ways.toNat := by
    rw [← hindex]
    exact (List.getElem?_eq_some_iff.mp hq).1
  unfold foreign
  rw [h.policy]
  by_cases hsame : way = way'
  · subst hsame
    have hchanged := tally_changed hset
      (f := fun set => decide (s.wayPartIndex[way]? = some (s.array (set * s.ways.toNat + way)).p))
      (g := fun set => decide (s.wayPartIndex[way]? = some (s'.array (set * s.ways.toNat + way)).p))
      (fun i _ hi => by
        rw [h.others _ fun heq => hi (line_inj hway hway heq).1]) false
    simp only [h.line, hq, decide_true, Bool.true_eq_false, if_false] at hchanged
    simp only [hq]
    omega
  · apply Nat.le_of_eq
    apply tally_congr
    intro i _
    rw [h.others _ fun heq => hsame (line_inj hway hway' heq).2]

theorem Gives.placed {q : ℕ} (h : s.Gives id q s') (hs : s.Placed)
    (hbest : s'.bestId = s.bestId ∨ s'.bestId = none) : s'.Placed := by
  constructor
  case testMode => exact h.testMode.trans hs.testMode
  case index =>
    rw [h.policy]
    exact hs.index
  case owns =>
    rw [h.policy]
    exact hs.owns
  case victim =>
    intro id' hid
    rcases hbest with hsame | hnone
    · obtain ⟨set, hset, hin⟩ := hs.victim id' (hsame.symm.trans hid)
      unfold InWays
      rw [h.policy, h.incomingLinePart]
      exact ⟨set, hset, hin⟩
    · cases hnone.symm.trans hid

theorem step_foreign (op : WayPartOp) (s s' : WayPartRepl) (hs : s.Placed) (hop : Calls op s)
    (h : step op s = some s') : s'.Placed ∧ s'.toWayPartReplPolicy = s.toWayPartReplPolicy ∧
      ∀ way < s.ways.toNat, s'.foreign way ≤ s.foreign way := by
  cases op with
  | update id =>
    obtain ⟨s1, hs1, hbest, hgives⟩ := update_spec (lt_of_update h)
    obtain rfl := Option.some.inj (hs1.symm.trans h)
    rw [if_pos (show 0 < (s.array id).ts from hop)] at hgives
    have hp : ∀ i, (s1.array i).p = (s.array i).p := by
      intro i
      by_cases hi : i = id
      · rw [hi, hgives.line]
      · exact hgives.others i hi
    exact ⟨hgives.placed hs (.inl hbest), hgives.policy,
      fun way _ => Nat.le_of_eq (foreign_same hgives.policy hp)⟩
  | rank part addr cands =>
    obtain ⟨⟨id, s1⟩, hrank, rfl⟩ := Option.map_eq_some_iff.mp h
    obtain ⟨hpart, set, hset, rfl⟩ := hop
    have hrest := rank_rest hrank
    have hroom : (set + 1) * s.ways.toNat ≤ s.totalSize.toNat :=
      Nat.le_trans (Nat.mul_le_mul_right _ hset) (Nat.div_mul_le_self _ _)
    have hidle : s.candIdx = 0 ∧ s.bestId = none := by
      by_contra hbusy
      rw [rank, startReplacement, if_neg hbusy] at hrank
      cases hrank
    obtain ⟨id', s2, hrank', hvictim, -⟩ :=
      rank_spec ⟨hidle.1, hidle.2, hs.index, hs.owns⟩ hs.testMode hpart hroom addr
    obtain ⟨rfl, rfl⟩ := Prod.mk.inj (Option.some.inj (hrank.symm.trans hrank'))
    refine ⟨?_, by rw [hrest], fun way _ => Nat.le_of_eq (foreign_same (by rw [hrest])
      fun i => by rw [hrest])⟩
    rw [hrest]
    refine ⟨hs.testMode, hs.index, hs.owns, fun i hi => ?_⟩
    obtain rfl := Option.some.inj hi
    exact ⟨set, hset, hvictim.inWays⟩
  | insert id =>
    obtain ⟨set, hset, hin⟩ := hs.victim id hop
    have hid : id < s.totalSize.toNat := by
      by_contra hid
      rw [step, replaced, if_neg hid] at h
      cases h
    obtain ⟨s1, hs1, hbest, hgives⟩ := insert_spec hid
    obtain rfl := Option.some.inj (hs1.symm.trans h)
    exact ⟨hgives.placed hs (.inr hbest), hgives.policy,
      fun way hway => hgives.foreign_le hway hset hin hs.index⟩
  | setPartitionSizes waysPart => cases hop

theorem run_foreign {ops : List WayPartOp} (hs : s.Placed) (hops : Along step Calls ops s)
    (hrun : run step ops s = some s') :
    s'.Placed ∧ s'.toWayPartReplPolicy = s.toWayPartReplPolicy ∧
      ∀ way < s.ways.toNat, s'.foreign way ≤ s.foreign way := by
  refine @run_preserves _ _ _ _ (fun s1 => s1.Placed ∧
    s1.toWayPartReplPolicy = s.toWayPartReplPolicy ∧
    ∀ way < s.ways.toNat, s1.foreign way ≤ s.foreign way) _ _ _ ?_ ?_ hops hrun
  · rintro op s1 s2 ⟨h1, hpolicy1, hle1⟩ hop h
    obtain ⟨h2, hpolicy, hle⟩ := step_foreign op s1 s2 h1 hop h
    refine ⟨h2, hpolicy.trans hpolicy1, fun way hway => ?_⟩
    have hways : s1.ways = s.ways := by rw [hpolicy1]
    exact Nat.le_trans (hle way (by rwa [hways])) (hle1 way hway)
  · exact ⟨hs, rfl, fun _ _ => Nat.le_refl _⟩

/-- With all partitions owning ways, a request replaces a line in a way of its partition, and one of
another partition while there are any; and as long as the ways stay assigned, no way gets more
lines of partitions that it is not assigned to. -/
theorem ways_isolate (s : WayPartRepl) (hmode : s.testMode = false) (hready : s.Ready) :
    (∀ part < s.partitions, ∀ addr, ∀ set < s.totalSize.toNat / s.ways.toNat,
      ∃ id s', s.rank part addr (setCands s.ways.toNat set) = some (id, s') ∧
        s.IsVictim part set id) ∧
    ∀ ops ops' s1 s2, Along step Calls (ops ++ ops') s → run step ops s = some s1 →
      run step ops' s1 = some s2 → ∀ way < s.ways.toNat, s2.foreign way ≤ s1.foreign way := by
  constructor
  · intro part hpart addr set hset
    have hroom : (set + 1) * s.ways.toNat ≤ s.totalSize.toNat :=
      Nat.le_trans (Nat.mul_le_mul_right _ hset) (Nat.div_mul_le_self _ _)
    obtain ⟨id, s', hrank, hvictim, -⟩ := rank_spec hready hmode hpart hroom addr
    exact ⟨id, s', hrank, hvictim⟩
  · intro ops ops' s1 s2 hall hrun hrun' way hway
    have hplaced : s.Placed :=
      ⟨hmode, hready.index, hready.owns, fun id hid => nomatch hready.bestId.symm.trans hid⟩
    obtain ⟨hops, hops'⟩ := along_append hall
    obtain ⟨h1, hpolicy, -⟩ := run_foreign hplaced hops hrun
    obtain ⟨-, -, hle⟩ := run_foreign h1 (hops' s1 hrun) hrun'
    exact hle way (by rwa [hpolicy])

/-- Two partitions of two ways each, of two sets. -/
theorem ways_isolate_two : ∃ s, start 2 8 4 false = some s ∧
    ∃ id s', s.rank 1 5 (setCands 4 1) = some (id, s') ∧ s.IsVictim 1 1 id := by
  refine ⟨_, rfl, ?_⟩
  exact (ways_isolate _ rfl ⟨rfl, rfl, by decide, by decide⟩).1 1 (by decide) 5 1 (by decide)

end WayPartRepl

end Doppelganger.Part
