import Doppelganger.Part.Allocation

/-! What `LookaheadPartitioner::partition` hands to the replacement policy, and the ways that
`setPartitionSizes` assigns.  The caller passes the buckets of all minimum allocations together as
the minimum of each partition, and the callee takes them off the balance once. -/

namespace Doppelganger.Part

open List Lib

/-! ### Assignment of ways -/

/-- The ways of the partitions from `p` on, in blocks. -/
def wayBlocks : Nat → List Nat → List Nat
  | _, [] => []
  | p, w :: ws => replicate w p ++ wayBlocks (p + 1) ws

theorem length_wayBlocks (p : Nat) (ws : List Nat) : (wayBlocks p ws).length = ws.sum := by
  induction ws generalizing p with
  | nil => rfl
  | cons w ws ih => rw [wayBlocks, length_append, length_replicate, ih, sum_cons]

theorem mem_wayBlocks {p q : Nat} {ws : List Nat} (h : q ∈ wayBlocks p ws) :
    p ≤ q ∧ q < p + ws.length := by
  induction ws generalizing p with
  | nil => cases h
  | cons w ws ih =>
    rw [wayBlocks, mem_append] at h
    rw [length_cons]
    rcases h with h | h
    · have := eq_of_mem_replicate h
      omega
    · have := ih h
      omega

theorem count_wayBlocks {p i w : Nat} {ws : List Nat} (h : ws[i]? = some w) :
    (wayBlocks p ws).count (p + i) = w := by
  induction ws generalizing p i with
  | nil => cases h
  | cons v ws ih =>
    rw [wayBlocks, count_append, count_replicate]
    cases i with
    | zero =>
      obtain rfl : v = w := by simpa using h
      have hout : p ∉ wayBlocks (p + 1) ws := fun hmem => by
        have := mem_wayBlocks hmem
        omega
      simp [count_eq_zero_of_not_mem hout]
    | succ i =>
      have hrest := ih (p := p + 1) (i := i) (by simpa using h)
      rw [Nat.add_right_comm, Nat.add_assoc] at hrest
      rw [hrest, if_neg (by simp)]
      exact Nat.zero_add w

/-- `front` is the part of the array before `curWay`. -/
theorem fillWays_spec {p n : Nat} {front rest : List Nat} (hle : n ≤ rest.length) :
    WayPartReplPolicy.fillWays p n front.length (front ++ rest) =
      some (front.length + n, front ++ replicate n p ++ rest.drop n) := by
  induction n generalizing front rest with
  | zero => simp [WayPartReplPolicy.fillWays]
  | succ n ih =>
    cases rest with
    | nil => simp at hle
    | cons x rest =>
      have hset : (front ++ x :: rest).set front.length p = front ++ [p] ++ rest := by
        rw [set_append_right _ _ (Nat.le_refl _), Nat.sub_self, set_cons_zero, append_assoc]
        rfl
      have hrest := @ih (front ++ [p]) rest (by simpa using hle)
      rw [length_append, length_singleton] at hrest
      rw [WayPartReplPolicy.fillWays, if_pos (by simp), hset, hrest, replicate_succ, drop_succ_cons]
      simp only [append_assoc, cons_append, nil_append, Option.some.injEq, Prod.mk.injEq, and_true]
      omega

theorem assignWays_spec {waysPart ws tail : List Nat} {p : Nat} {front rest : List Nat}
    {repl : WayPartReplPolicy} (hws : waysPart.drop p = ws ++ tail) (hle : ws.sum ≤ rest.length)
    (hindex : repl.wayPartIndex = front ++ rest) :
    ∃ repl', WayPartReplPolicy.assignWays waysPart ws.length p front.length repl =
        some (front.length + ws.sum, repl') ∧ repl'.ways = repl.ways ∧
      repl'.wayPartIndex = front ++ wayBlocks p ws ++ rest.drop ws.sum := by
  induction ws generalizing p front rest repl with
  | nil => exact ⟨repl, by simp [WayPartReplPolicy.assignWays], rfl, by simp [wayBlocks, hindex]⟩
  | cons w ws ih =>
    have hw : waysPart[p]? = some w := by
      have hhead := congrArg (·[0]?) hws
      simpa using hhead
    have hdrop : waysPart.drop (p + 1) = ws ++ tail := by
      rw [← drop_drop, hws]
      rfl
    rw [sum_cons] at hle
    obtain ⟨repl', hrest, hways, hindex'⟩ := @ih (p + 1) (front ++ replicate w p) (rest.drop w)
      { repl with
        targetSize := repl.targetSize.set p (repl.totalSize * UInt32.ofNat w / repl.ways)
        wayPartIndex := front ++ replicate w p ++ rest.drop w } hdrop
      (by rw [length_drop]; omega) rfl
    refine ⟨repl', ?_, hways, ?_⟩
    · rw [length_append, length_replicate] at hrest
      rw [length_cons, WayPartReplPolicy.assignWays, hw, Option.bind_some, hindex,
        fillWays_spec (by omega), Option.bind_some, sum_cons, ← Nat.add_assoc]
      exact hrest
    · rw [hindex', wayBlocks, sum_cons, drop_drop]
      simp only [append_assoc]

/-- A way-partitioned cache of `ways` ways. -/
structure WayPartReplPolicy.OfWays (partitions : Nat) (ways : UInt32) (repl : WayPartReplPolicy) :
    Prop where
  partitions : repl.partitions = partitions
  index : repl.wayPartIndex.length = ways.toNat
  ways : repl.ways = ways

/-- Every way belongs to one partition, and partition `p` has `allocs[p]` of them. -/
structure WayPartReplPolicy.Assigned (ways : UInt32) (allocs : List Nat)
    (repl : WayPartReplPolicy) : Prop where
  length : repl.wayPartIndex.length = ways.toNat
  partition : ∀ p ∈ repl.wayPartIndex, p < allocs.length
  count : ∀ p ways, allocs[p]? = some ways → repl.wayPartIndex.count p = ways

/-- Allocations that sum to the number of ways are assigned. -/
theorem setPartitionSizes_assigned {ways : UInt32} {allocs tail : List Nat}
    {repl : WayPartReplPolicy} (h : repl.OfWays allocs.length ways)
    (hsum : allocs.sum = ways.toNat) :
    ∃ repl', repl.setPartitionSizes (allocs ++ tail) = some repl' ∧ repl'.Assigned ways allocs := by
  have hle : allocs.sum ≤ repl.wayPartIndex.length := by
    rw [h.index]
    omega
  have hwaysPart : (allocs ++ tail).drop 0 = allocs ++ tail := rfl
  obtain ⟨repl', hassign, hways, hindex⟩ :=
    assignWays_spec hwaysPart hle (nil_append repl.wayPartIndex).symm
  rw [nil_append, drop_of_length_le (by rw [h.index]; omega), append_nil] at hindex
  refine ⟨repl', ?_, ?_, ?_, ?_⟩
  · rw [WayPartReplPolicy.setPartitionSizes, h.partitions]
    rw [length_nil] at hassign
    rw [hassign, Option.bind_some]
    simp only
    rw [if_pos]
    rw [hways, h.ways]
    omega
  · rw [hindex, length_wayBlocks, hsum]
  · intro p hp
    rw [hindex] at hp
    have := mem_wayBlocks hp
    omega
  · intro p w hw
    have hcount := count_wayBlocks (p := 0) hw
    rwa [Nat.zero_add, ← hindex] at hcount

/-! ### Calls of `partition` -/

namespace LookaheadPartitioner

variable {lp : LookaheadPartitioner} {monitor : PartitionMonitor}

/-- No partition is forbidden, and the current allocations are points of the curves. -/
structure Valid (lp : LookaheadPartitioner) : Prop where
  forbidden : lp.forbidden = none
  minAllocs : lp.minAlloc.toNat * lp.numPartitions.toNat ≤ lp.buckets.toNat
  length : lp.curAllocs.length = lp.buckets.toNat + 1
  upper : ∀ a ∈ lp.curAllocs, a ≤ lp.buckets.toNat

/-- A call of `partition` allocates the buckets it was given, at least `minAlloc` to each
partition, and with way partitioning these allocations assign every way. -/
def Partitions (lp : LookaheadPartitioner) (monitor : PartitionMonitor) : Prop :=
  ∃ lp' allocs, lp.partition monitor = some lp' ∧
    allocs = lp'.curAllocs.take lp.numPartitions.toNat ∧
    allocs.length = lp.numPartitions.toNat ∧ (∀ a ∈ allocs, lp.minAlloc.toNat ≤ a) ∧
    allocs.sum = lp.given.toNat ∧
    ∀ repl : WayPartReplPolicy, lp.allocPortion = 1.0 →
      repl.OfWays lp.numPartitions.toNat lp.buckets →
      ∃ repl', repl.setPartitionSizes lp'.curAllocs = some repl' ∧ repl'.Assigned lp.buckets allocs

theorem Valid.toNat_mul (h : lp.Valid) :
    (lp.minAlloc * lp.numPartitions).toNat = lp.minAlloc.toNat * lp.numPartitions.toNat := by
  have hle := h.minAllocs
  have hlt := lp.buckets.toNat_lt
  rw [UInt32.toNat_mul, Nat.mod_eq_of_lt (by omega)]

/-- The callee gives each partition the minimum of all of them together. -/
theorem Valid.bestAllocs (h : lp.Valid) (hpos : 0 < lp.numPartitions.toNat)
    (hcurves : monitor.Curves lp.numPartitions.toNat lp.buckets.toNat)
    (hle : lp.minAlloc.toNat * lp.numPartitions.toNat ≤ lp.given.toNat)
    (hgiven : lp.given.toNat ≤ lp.buckets.toNat) :
    ∃ allocs, lp.bestAllocs monitor = some allocs ∧
      Allocated lp.numPartitions.toNat lp.buckets.toNat
        (lp.minAlloc.toNat * lp.numPartitions.toNat)
        (lp.numPartitions.toNat * (lp.minAlloc.toNat * lp.numPartitions.toNat) +
          (lp.given.toNat - lp.minAlloc.toNat * lp.numPartitions.toNat)) allocs := by
  have hmul := h.toNat_mul
  have hbalance : (lp.given - lp.minAlloc * lp.numPartitions).toNat =
      lp.given.toNat - lp.minAlloc.toNat * lp.numPartitions.toNat := by
    rw [UInt32.toNat_sub_of_le, hmul]
    rw [UInt32.le_iff_toNat_le, hmul]
    exact hle
  have hlength : (replicate lp.numPartitions.toNat (lp.minAlloc * lp.numPartitions).toNat).length =
      lp.numPartitions.toNat := length_replicate
  obtain ⟨allocs, halloc, hallocated⟩ := allocate_allocated hcurves lp.buckets.toNat_lt hpos
    (Nat.le_refl (lp.given - lp.minAlloc * lp.numPartitions).toNat) hlength
    (fun a ha => show lp.minAlloc.toNat * lp.numPartitions.toNat ≤ a by
      rw [eq_of_mem_replicate ha, hmul])
    (fun a ha => by rw [eq_of_mem_replicate ha, hmul, hbalance]; omega)
  rw [sum_replicate_nat, hmul, hbalance] at hallocated
  refine ⟨allocs, ?_, hallocated⟩
  rw [LookaheadPartitioner.bestAllocs, h.forbidden]
  exact halloc

/-- When more is given than there is, or so little that the balance wraps, the greedy loop leaves
the curves. -/
theorem Valid.bestAllocs_none (h : lp.Valid) (hpos : 0 < lp.numPartitions.toNat)
    (hcurves : monitor.Curves lp.numPartitions.toNat lp.buckets.toNat)
    (hlt : lp.given.toNat < lp.minAlloc.toNat * lp.numPartitions.toNat ∨
      lp.buckets.toNat < lp.given.toNat) :
    lp.bestAllocs monitor = none := by
  have hmul := h.toNat_mul
  have hmin := h.minAllocs
  have hbuckets := lp.buckets.toNat_lt
  have hgiven := lp.given.toNat_lt
  have hbalance : (lp.given - lp.minAlloc * lp.numPartitions).toNat =
      (lp.given.toNat + 2 ^ 32 - lp.minAlloc.toNat * lp.numPartitions.toNat) % 2 ^ 32 := by
    rw [UInt32.toNat_sub, hmul]
    omega
  rw [LookaheadPartitioner.bestAllocs, h.forbidden]
  exact allocate_none hcurves hpos (by omega) (by omega) (by omega)

/-- The utility of allocations that are points of the curves is computed. -/
theorem totalUtility_some {numPartitions buckets : Nat}
    (hcurves : monitor.Curves numPartitions buckets) {parts : List Nat}
    (hupper : ∀ a ∈ parts, a ≤ buckets) {n p : Nat} {sums : UInt64 × UInt64}
    (hn : p + n ≤ numPartitions) (hlength : p + n ≤ parts.length) :
    ∃ utility, computePartitioningTotalUtility monitor parts n p sums = some utility := by
  induction n generalizing p sums with
  | zero => exact ⟨_, rfl⟩
  | succ n ih =>
    have hp : p < parts.length := by omega
    have hpart : p < numPartitions := by omega
    obtain ⟨m0, h0⟩ := get_some hcurves hpart (Nat.zero_le _)
    obtain ⟨m1, h1⟩ := get_some hcurves hpart (hupper _ (getElem_mem hp))
    obtain ⟨utility, hrest⟩ := @ih (p + 1)
      (sums.1 + m0.toUInt64, sums.2 + m1.toUInt64) (by omega) (by omega)
    refine ⟨utility, ?_⟩
    rw [computePartitioningTotalUtility, h0, Option.bind_some, getElem?_eq_getElem hp,
      Option.bind_some, h1]
    exact hrest

/-- `partition` succeeds when `computeBestPartitioning` does and `curAllocs` has an entry for
each partition. -/
theorem Valid.partition (h : lp.Valid)
    (hcurves : monitor.Curves lp.numPartitions.toNat lp.buckets.toNat)
    (hlength : lp.numPartitions.toNat ≤ lp.buckets.toNat + 1) {lower total : Nat}
    {allocs : List Nat} (hbest : lp.bestAllocs monitor = some allocs)
    (hallocated : Allocated lp.numPartitions.toNat lp.buckets.toNat lower total allocs) :
    lp.partition monitor =
      some { lp with curAllocs := allocs ++ lp.curAllocs.drop lp.numPartitions.toNat } := by
  have hcur := h.length
  obtain ⟨newUtility, hnew⟩ := @totalUtility_some _ _ _ hcurves _ hallocated.upper
    lp.numPartitions.toNat 0 (0, 0) (by omega) (by rw [hallocated.length]; omega)
  obtain ⟨curUtility, hold⟩ := @totalUtility_some _ _ _ hcurves _ h.upper
    lp.numPartitions.toNat 0 (0, 0) (by omega) (by omega)
  rw [LookaheadPartitioner.partition, hbest, Option.bind_some]
  simp only [hnew, Option.bind_some, hold, copyAllocs]
  rw [if_pos (by omega), Option.map_some, take_of_length_le (by rw [hallocated.length])]

theorem totalUtility_none {parts : List Nat} {n p : Nat} {sums : UInt64 × UInt64}
    (hlt : parts.length < p + n) (hle : p ≤ parts.length) :
    computePartitioningTotalUtility monitor parts n p sums = none := by
  induction n generalizing p sums with
  | zero => omega
  | succ n ih =>
    rw [computePartitioningTotalUtility]
    cases h0 : monitor.get p 0 with
    | none => rfl
    | some m0 =>
      by_cases hp : p < parts.length
      · rw [Option.bind_some, getElem?_eq_getElem hp, Option.bind_some]
        cases h1 : monitor.get p parts[p] with
        | none => rfl
        | some m1 => exact ih (by omega) (by omega)
      · rw [Option.bind_some, getElem?_eq_none (by omega), Option.bind_none]

/-- With more partitions than entries of `curAllocs`, `partition` fails. -/
theorem Valid.partition_none (h : lp.Valid)
    (hlt : lp.buckets.toNat + 1 < lp.numPartitions.toNat) : lp.partition monitor = none := by
  have hcur := h.length
  rw [LookaheadPartitioner.partition]
  cases hbest : lp.bestAllocs monitor with
  | none => rfl
  | some allocs =>
    simp only [Option.bind_some]
    cases hnew : computePartitioningTotalUtility monitor allocs lp.numPartitions.toNat 0 (0, 0) with
    | none => rfl
    | some newUtility =>
      rw [Option.bind_some, @totalUtility_none _ lp.curAllocs _ _ _ (by omega) (by omega),
        Option.bind_none]

/-- What a call of `partition` that succeeds has found. -/
theorem Valid.of_partition (h : lp.Valid) (hpos : 0 < lp.numPartitions.toNat)
    (hcurves : monitor.Curves lp.numPartitions.toNat lp.buckets.toNat) {lp' : LookaheadPartitioner}
    (hpartition : lp.partition monitor = some lp') :
    lp.minAlloc.toNat * lp.numPartitions.toNat ≤ lp.given.toNat ∧
      lp.given.toNat ≤ lp.buckets.toNat ∧ lp.numPartitions.toNat ≤ lp.buckets.toNat + 1 := by
  have hsome (hlt : lp.given.toNat < lp.minAlloc.toNat * lp.numPartitions.toNat ∨
      lp.buckets.toNat < lp.given.toNat) : False := by
    rw [LookaheadPartitioner.partition, h.bestAllocs_none hpos hcurves hlt] at hpartition
    cases hpartition
  refine ⟨?_, ?_, ?_⟩ <;> by_contra hlt
  · exact hsome (.inl (by omega))
  · exact hsome (.inr (by omega))
  · rw [h.partition_none (by omega)] at hpartition
    cases hpartition

theorem Valid.step (h : lp.Valid) (hpos : 0 < lp.numPartitions.toNat)
    (hcurves : monitor.Curves lp.numPartitions.toNat lp.buckets.toNat) {lp' : LookaheadPartitioner}
    (hpartition : lp.partition monitor = some lp') :
    lp'.Valid ∧ lp' = { lp with curAllocs := lp'.curAllocs } := by
  obtain ⟨hle, hgiven, hlength⟩ := h.of_partition hpos hcurves hpartition
  obtain ⟨allocs, hbest, hallocated⟩ := h.bestAllocs hpos hcurves hle hgiven
  have hcur := h.length
  rw [h.partition hcurves hlength hbest hallocated] at hpartition
  cases hpartition
  refine ⟨⟨h.forbidden, h.minAllocs, ?_, fun a ha => ?_⟩, rfl⟩
  · rw [length_append, hallocated.length, length_drop, hcur]
    simp only
    omega
  · rcases mem_append.mp ha with hnew | hold
    · exact hallocated.upper a hnew
    · exact h.upper a (mem_of_mem_drop hold)

theorem Valid.partitions_iff (h : lp.Valid) (hpos : 0 < lp.numPartitions.toNat)
    (hcurves : monitor.Curves lp.numPartitions.toNat lp.buckets.toNat) :
    lp.Partitions monitor ↔ lp.given.toNat ≤ lp.buckets.toNat ∧
      (lp.minAlloc.toNat = 0 ∧ lp.numPartitions.toNat ≤ lp.buckets.toNat + 1 ∨
        lp.numPartitions.toNat = 1 ∧ lp.minAlloc.toNat ≤ lp.given.toNat) := by
  constructor
  · rintro ⟨lp', allocs, hpartition, rfl, -, -, hsum, -⟩
    obtain ⟨hle, hgiven, hlength⟩ := h.of_partition hpos hcurves hpartition
    refine ⟨hgiven, ?_⟩
    obtain ⟨allocs, hbest, hallocated⟩ := h.bestAllocs hpos hcurves hle hgiven
    rw [h.partition hcurves hlength hbest hallocated] at hpartition
    cases hpartition
    rw [take_left' hallocated.length, hallocated.sum] at hsum
    -- What each partition gets beyond one share of the minimum is too much.
    have hshare : lp.numPartitions.toNat * (lp.minAlloc.toNat * lp.numPartitions.toNat) =
        1 * (lp.minAlloc.toNat * lp.numPartitions.toNat) := by
      omega
    rcases Nat.eq_zero_or_pos (lp.minAlloc.toNat * lp.numPartitions.toNat) with hzero | hmin
    · rcases Nat.mul_eq_zero.mp hzero with hzero | hzero
      · exact .inl ⟨hzero, hlength⟩
      · omega
    · have hone := Nat.eq_of_mul_eq_mul_right hmin hshare
      rw [hone, Nat.mul_one] at hle
      exact .inr ⟨hone, hle⟩
  · rintro ⟨hle, hcond⟩
    obtain ⟨hmin, hlength, hshare⟩ :
        lp.minAlloc.toNat * lp.numPartitions.toNat = lp.minAlloc.toNat ∧
          lp.numPartitions.toNat ≤ lp.buckets.toNat + 1 ∧
          lp.numPartitions.toNat * lp.minAlloc.toNat = lp.minAlloc.toNat := by
      rcases hcond with ⟨hzero, hlength⟩ | ⟨hone, -⟩
      · simp [hzero, hlength]
      · have hbuckets := h.minAllocs
        simp [hone]
    have hmin' : lp.minAlloc.toNat ≤ lp.given.toNat := by
      rcases hcond with ⟨hzero, -⟩ | ⟨-, hle⟩
      · omega
      · exact hle
    obtain ⟨allocs, hbest, hallocated⟩ := h.bestAllocs hpos hcurves (by omega) hle
    rw [hmin, hshare] at hallocated
    have hsum : allocs.sum = lp.given.toNat := by
      rw [hallocated.sum]
      omega
    refine ⟨_, allocs, h.partition hcurves hlength hbest hallocated,
      (take_left' hallocated.length).symm, hallocated.length, hallocated.lower, hsum,
      fun repl hportion hrepl => ?_⟩
    have hgiven : lp.given = lp.buckets := by
      rw [LookaheadPartitioner.given, hportion]
      exact toUInt32_one_mul _
    apply setPartitionSizes_assigned
    · rw [hallocated.length]
      exact hrepl
    · rw [hsum, hgiven]

end LookaheadPartitioner

/-- A call of `partition` after any number of others, by a partitioner of any portion of the
buckets.  The minimum allocations are right when there are none or there is one partition. -/
theorem partition_partitions_iff {numPartitions buckets minAlloc : UInt32} {allocPortion : Float}
    {lp0 lp : LookaheadPartitioner} {history : List PartitionMonitor} {monitor : PartitionMonitor}
    (hinit : LookaheadPartitioner.init numPartitions buckets minAlloc allocPortion none = some lp0)
    (hpos : 0 < numPartitions.toNat)
    (hmin : minAlloc.toNat * numPartitions.toNat ≤ buckets.toNat)
    (hcurves : ∀ m ∈ monitor :: history, m.Curves numPartitions.toNat buckets.toNat)
    (hrun : run LookaheadPartitioner.partition history lp0 = some lp) :
    lp.Partitions monitor ↔
      (allocPortion * buckets.toFloat).toUInt32.toNat ≤ buckets.toNat ∧
      (minAlloc.toNat = 0 ∧ numPartitions.toNat ≤ buckets.toNat + 1 ∨
        numPartitions.toNat = 1 ∧
          minAlloc.toNat ≤ (allocPortion * buckets.toFloat).toUInt32.toNat) := by
  rw [LookaheadPartitioner.init, Option.ite_none_right_eq_some] at hinit
  obtain ⟨hbuckets, hlp0⟩ := hinit
  cases hlp0
  have hvalid : lp.Valid ∧ lp = ⟨numPartitions, buckets, minAlloc, allocPortion, none,
      lp.curAllocs⟩ := by
    have hhistory := @along_of_mem _ _ LookaheadPartitioner.partition _ history
      (fun m hm => hcurves m (mem_cons_of_mem monitor hm)) ⟨numPartitions, buckets, minAlloc,
        allocPortion, none, replicate (buckets.toNat + 1) 0⟩
    refine @run_preserves _ _ _ _ (fun lp => lp.Valid ∧
      lp = ⟨numPartitions, buckets, minAlloc, allocPortion, none, lp.curAllocs⟩) _ _ _ ?_ ?_
      hhistory hrun
    · rintro m lp1 lp2 ⟨h1, hconfig⟩ hm hpartition
      rw [hconfig] at h1 hpartition
      obtain ⟨h2, hconfig2⟩ := h1.step hpos hm hpartition
      exact ⟨h2, hconfig2⟩
    · refine ⟨⟨rfl, hmin, length_replicate, fun a ha => ?_⟩, rfl⟩
      rw [eq_of_mem_replicate ha]
      exact Nat.zero_le _
  obtain ⟨hvalid, hconfig⟩ := hvalid
  rw [hconfig] at hvalid ⊢
  exact hvalid.partitions_iff hpos (hcurves monitor (by simp))

/-- One partition of a cache of two ways. -/
theorem partition_partitions_iff_one :
    (⟨1, 2, 1, 1.0, none, [0, 0, 0]⟩ : LookaheadPartitioner).Partitions ⟨[[9, 4, 1]]⟩ ↔
      ((1.0 : Float) * (2 : UInt32).toFloat).toUInt32.toNat ≤ 2 ∧
      ((1 : UInt32).toNat = 0 ∧ (1 : UInt32).toNat ≤ 3 ∨
        (1 : UInt32).toNat = 1 ∧
          (1 : UInt32).toNat ≤ ((1.0 : Float) * (2 : UInt32).toFloat).toUInt32.toNat) :=
  partition_partitions_iff rfl (by decide) (by decide)
    (by rintro m (_ | ⟨_, ⟨⟩⟩); exact ⟨rfl, by simp⟩) (rfl : run _ [] _ = _)

/-- Two partitions with a minimum of one bucket get six of four buckets, and the assignment of
the four ways leaves its array. -/
theorem partition_too_much : ∃ lp lp',
    LookaheadPartitioner.init 2 4 1 1.0 none = some lp ∧
    PartitionMonitor.Curves 2 4 ⟨[[9, 6, 3, 1, 0], [9, 5, 4, 2, 0]]⟩ ∧
    (1 : UInt32).toNat * (2 : UInt32).toNat ≤ (4 : UInt32).toNat ∧
    lp.partition ⟨[[9, 6, 3, 1, 0], [9, 5, 4, 2, 0]]⟩ = some lp' ∧
    lp.given = 4 ∧ (lp'.curAllocs.take 2).sum = 6 ∧
    WayPartReplPolicy.setPartitionSizes lp'.curAllocs ⟨2, 4096, 4, [0, 0], [0, 0, 1, 1]⟩ = none ∧
    ¬ lp.Partitions ⟨[[9, 6, 3, 1, 0], [9, 5, 4, 2, 0]]⟩ := by
  have hpartition : LookaheadPartitioner.partition ⟨[[9, 6, 3, 1, 0], [9, 5, 4, 2, 0]]⟩
      ⟨2, 4, 1, 1.0, none, [0, 0, 0, 0, 0]⟩ = some ⟨2, 4, 1, 1.0, none, [3, 3, 0, 0, 0]⟩ := by
    rfl
  refine ⟨⟨2, 4, 1, 1.0, none, [0, 0, 0, 0, 0]⟩, ⟨2, 4, 1, 1.0, none, [3, 3, 0, 0, 0]⟩, rfl,
    ⟨rfl, by simp⟩, by decide, hpartition, rfl, rfl, rfl, ?_⟩
  rintro ⟨lp', allocs, hsome, rfl, -, -, hsum, -⟩
  rw [hpartition] at hsome
  cases hsome
  exact absurd hsum (by decide)

end Doppelganger.Part
