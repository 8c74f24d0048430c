import Doppelganger.Part.Lookahead

/-! The allocations of the greedy loop: it ends, it gives out its whole balance and it asks for no
point past the end of a curve. -/

namespace Doppelganger.Part

open List Lib

/-- One curve for each partition, with a point for each number of buckets. -/
structure PartitionMonitor.Curves (numPartitions buckets : Nat) (monitor : PartitionMonitor) :
    Prop where
  length : monitor.curves.length = numPartitions
  points : ∀ curve ∈ monitor.curves, curve.length = buckets + 1

section Monitor

variable {monitor : PartitionMonitor} {numPartitions buckets part : Nat}

theorem get_some (h : monitor.Curves numPartitions buckets) (hpart : part < numPartitions) {b : Nat}
    (hb : b ≤ buckets) : ∃ misses, monitor.get part b = some misses := by
  have hlt : part < monitor.curves.length := by
    rw [h.length]
    exact hpart
  have hpoints := h.points _ (getElem_mem hlt)
  refine ⟨monitor.curves[part][b], ?_⟩
  rw [PartitionMonitor.get, getElem?_eq_getElem hlt, Option.bind_some, getElem?_eq_getElem]

theorem get_none (h : monitor.Curves numPartitions buckets) {b : Nat} (hb : buckets < b) :
    monitor.get part b = none := by
  unfold PartitionMonitor.get
  cases hcurve : monitor.curves[part]? with
  | none => rfl
  | some curve =>
    have hpoints := h.points _ (mem_of_getElem? hcurve)
    rw [Option.bind_some, getElem?_eq_none]
    omega

/-! ### Marginal utility -/

theorem marginalUtility_some (h : monitor.Curves numPartitions buckets)
    (hbuckets : buckets < 2 ^ 32) (hpart : part < numPartitions) {partAlloc i : Nat} (hi : 0 < i)
    (hle : partAlloc + i ≤ buckets) :
    ∃ mu, marginalUtility monitor part partAlloc i = some mu ∧ Nonneg mu := by
  obtain ⟨m0, h0⟩ := get_some h hpart (b := partAlloc) (by omega)
  obtain ⟨m1, h1⟩ := get_some h hpart hle
  refine ⟨_, by rw [marginalUtility, h0, Option.bind_some, h1, Option.map_some], ?_⟩
  apply nonneg_div (nonneg_toFloat _)
  rw [UInt32.toNat_ofNat', Nat.mod_eq_of_lt (by omega)]
  exact hi

/-- The best so far has property `P` once a candidate has been compared with it. -/
theorem keepsBest {β : Type} {P : Float × β → Prop} {mu : Float} {cand : β} {best : Float × β}
    (hmu : Nonneg mu) (hcand : P (mu, cand)) (hbest : P best ∨ best.1 = -1.0) :
    P (if mu > best.1 then (mu, cand) else best) := by
  split
  · exact hcand
  · rename_i hle
    rcases hbest with hbest | hinit
    · exact hbest
    · rw [hinit] at hle
      exact absurd (neg_one_lt hmu) hle

/-- A utility that was found with some of the `balance`. -/
def Found (balance : Nat) (best : Float × Nat) : Prop :=
  Nonneg best.1 ∧ 0 < best.2 ∧ best.2 ≤ balance

theorem maxMarginalUtility_found (h : monitor.Curves numPartitions buckets)
    (hbuckets : buckets < 2 ^ 32) (hpart : part < numPartitions) {partAlloc balance n i : Nat}
    {best : Float × Nat} (hle : partAlloc + balance ≤ buckets) (hi : 0 < i)
    (hn : i + n = balance + 1) (hbest : Found balance best ∨ best.1 = -1.0 ∧ 0 < n) :
    ∃ best', maxMarginalUtility monitor part partAlloc n i best = some best' ∧
      Found balance best' := by
  induction n generalizing i best with
  | zero =>
    rcases hbest with hfound | ⟨-, hn⟩
    · exact ⟨best, rfl, hfound⟩
    · omega
  | succ n ih =>
    obtain ⟨mu, hmu, hnonneg⟩ :=
      marginalUtility_some h hbuckets hpart hi (show partAlloc + i ≤ buckets by omega)
    have hfound : Found balance (if mu > best.1 then (mu, i) else best) := by
      apply keepsBest hnonneg ⟨hnonneg, hi, by omega⟩
      exact hbest.imp id And.left
    obtain ⟨best', hrest, hfound'⟩ := ih (i := i + 1) (by omega) (by omega) (.inl hfound)
    exact ⟨best', by rw [maxMarginalUtility, hmu]; exact hrest, hfound'⟩

theorem getMaxMarginalUtility_found (h : monitor.Curves numPartitions buckets)
    (hbuckets : buckets < 2 ^ 32) (hpart : part < numPartitions) {partAlloc balance : Nat}
    (hpos : 0 < balance) (hle : partAlloc + balance ≤ buckets) :
    ∃ best, getMaxMarginalUtility monitor part partAlloc balance = some best ∧
      Found balance best := by
  apply maxMarginalUtility_found h hbuckets hpart hle Nat.one_pos (Nat.add_comm _ _)
  exact .inr ⟨rfl, hpos⟩

/-- The loop fails when it comes to a point past the end of the curve. -/
theorem maxMarginalUtility_none (h : monitor.Curves numPartitions buckets) {partAlloc n i : Nat}
    {best : Float × Nat} (hlt : buckets + 1 < partAlloc + i + n)
    (hle : partAlloc + i ≤ buckets + 1) :
    maxMarginalUtility monitor part partAlloc n i best = none := by
  induction n generalizing i best with
  | zero => omega
  | succ n ih =>
    rw [maxMarginalUtility]
    cases hmu : marginalUtility monitor part partAlloc i with
    | none => rfl
    | some mu =>
      have hin : partAlloc + i ≤ buckets := by
        by_contra hout
        rw [marginalUtility, get_none h (b := partAlloc + i) (by omega)] at hmu
        cases hcur : monitor.get part partAlloc <;> simp [hcur] at hmu
      exact ih (by omega) (by omega)

/-! ### The greedy loop -/

/-- A partition was found that can use some of the `balance`. -/
def Chosen (numPartitions balance : Nat) (best : Float × Nat × Nat) : Prop :=
  Nonneg best.1 ∧ best.2.1 < numPartitions ∧ 0 < best.2.2 ∧ best.2.2 ≤ balance

theorem bestPartition_chosen (h : monitor.Curves numPartitions buckets)
    (hbuckets : buckets < 2 ^ 32) {allocs : List Nat} (hlength : allocs.length = numPartitions)
    {balance n i : Nat} {best : Float × Nat × Nat} (hpos : 0 < balance)
    (hle : ∀ a ∈ allocs, a + balance ≤ buckets) (hn : i + n = numPartitions)
    (hbest : Chosen numPartitions balance best ∨ best.1 = -1.0 ∧ 0 < n) :
    ∃ best', bestPartition monitor none allocs balance n i best = some best' ∧
      Chosen numPartitions balance best' := by
  induction n generalizing i best with
  | zero =>
    rcases hbest with hchosen | ⟨-, hn⟩
    · exact ⟨best, rfl, hchosen⟩
    · omega
  | succ n ih =>
    have hi : i < allocs.length := by omega
    obtain ⟨⟨mu, muAlloc⟩, hmu, hnonneg, hpos', hle'⟩ := getMaxMarginalUtility_found h hbuckets
      (show i < numPartitions by omega) hpos (hle _ (getElem_mem hi))
    have hchosen : Chosen numPartitions balance
        (if mu > best.1 then (mu, i, muAlloc) else best) := by
      apply keepsBest hnonneg ⟨hnonneg, by simp only; omega, hpos', hle'⟩
      exact hbest.imp id And.left
    obtain ⟨best', hrest, hchosen'⟩ := ih (i := i + 1) (by omega) (.inl hchosen)
    refine ⟨best', ?_, hchosen'⟩
    rw [bestPartition, if_neg (by simp), getElem?_eq_getElem hi, Option.bind_some, hmu]
    exact hrest

theorem sum_modify {allocs : List Nat} {i : Nat} (hi : i < allocs.length) (n : Nat) :
    (allocs.modify i (· + n)).sum = allocs.sum + n := by
  induction allocs generalizing i with
  | nil => simp at hi
  | cons a allocs ih =>
    cases i with
    | zero =>
      simp only [modify_zero_cons, sum_cons]
      omega
    | succ i =>
      simp only [modify_succ_cons, sum_cons, ih (by simpa using hi)]
      omega

theorem mem_modify_add {allocs : List Nat} {i n a : Nat} (ha : a ∈ allocs.modify i (· + n)) :
    a ∈ allocs ∨ ∃ b ∈ allocs, a = b + n := by
  induction allocs generalizing i with
  | nil => cases i <;> simp at ha
  | cons b allocs ih =>
    cases i with
    | zero =>
      rw [modify_zero_cons, mem_cons] at ha
      rcases ha with rfl | ha
      · exact .inr ⟨b, by simp, rfl⟩
      · exact .inl (by simp [ha])
    | succ i =>
      rw [modify_succ_cons, mem_cons] at ha
      rcases ha with rfl | ha
      · exact .inl (by simp)
      · rcases ih ha with hmem | ⟨c, hc, hac⟩
        · exact .inl (by simp [hmem])
        · exact .inr ⟨c, by simp [hc], hac⟩

/-- The allocations after the balance is given out. -/
structure Allocated (numPartitions buckets lower total : Nat) (allocs : List Nat) : Prop where
  length : allocs.length = numPartitions
  sum : allocs.sum = total
  lower : ∀ a ∈ allocs, lower ≤ a
  upper : ∀ a ∈ allocs, a ≤ buckets

theorem allocate_allocated (h : monitor.Curves numPartitions buckets) (hbuckets : buckets < 2 ^ 32)
    (hpos : 0 < numPartitions) {fuel balance lower : Nat} {allocs : List Nat}
    (hfuel : balance ≤ fuel) (hlength : allocs.length = numPartitions)
    (hlower : ∀ a ∈ allocs, lower ≤ a) (hupper : ∀ a ∈ allocs, a + balance ≤ buckets) :
    ∃ allocs', allocate monitor none numPartitions fuel balance allocs = some allocs' ∧
      Allocated numPartitions buckets lower (allocs.sum + balance) allocs' := by
  induction fuel generalizing balance allocs with
  | zero =>
    obtain rfl : balance = 0 := by omega
    exact ⟨allocs, by rw [allocate], hlength, rfl, hlower, hupper⟩
  | succ fuel ih =>
    cases balance with
    | zero => exact ⟨allocs, by rw [allocate], hlength, rfl, hlower, hupper⟩
    | succ balance =>
      have hbest0 : Chosen numPartitions (balance + 1) ((-1.0 : Float), numPartitions, 0) ∨
          (-1.0 : Float) = -1.0 ∧ 0 < numPartitions := .inr ⟨rfl, hpos⟩
      obtain ⟨⟨mu, maxMuPart, maxMuAlloc⟩, hbest, -, hpart, hsome, hall⟩ :=
        bestPartition_chosen h hbuckets hlength (Nat.succ_pos balance) hupper (Nat.zero_add _)
          hbest0
      simp only at hpart hsome hall
      obtain ⟨allocs', hrest, hallocated⟩ := @ih (balance + 1 - maxMuAlloc)
        (allocs.modify maxMuPart (· + maxMuAlloc)) (by omega)
        (by rw [length_modify, hlength])
        (fun a ha => by
          rcases mem_modify_add ha with hmem | ⟨b, hb, rfl⟩
          · exact hlower a hmem
          · have := hlower b hb
            omega)
        (fun a ha => by
          rcases mem_modify_add ha with hmem | ⟨b, hb, rfl⟩
          · have := hupper a hmem
            omega
          · have := hupper b hb
            omega)
      refine ⟨allocs', ?_, ?_⟩
      · rw [allocate, hbest, Option.bind_some]
        simp only [if_pos hpart, hrest]
      · have htotal : (allocs.modify maxMuPart (· + maxMuAlloc)).sum + (balance + 1 - maxMuAlloc) =
            allocs.sum + (balance + 1) := by
          rw [sum_modify (by omega)]
          omega
        rwa [htotal] at hallocated

/-- A balance that runs past the end of the curves fails. -/
theorem allocate_none (h : monitor.Curves numPartitions buckets) (hpos : 0 < numPartitions)
    {fuel balance lower : Nat} (hfuel : 0 < fuel) (hlower : lower ≤ buckets)
    (hlt : buckets < lower + balance) :
    allocate monitor none numPartitions fuel balance (replicate numPartitions lower) = none := by
  obtain ⟨n, rfl⟩ : ∃ n, numPartitions = n + 1 := ⟨numPartitions - 1, by omega⟩
  obtain ⟨f, rfl⟩ : ∃ f, fuel = f + 1 := ⟨fuel - 1, by omega⟩
  obtain ⟨b, rfl⟩ : ∃ b, balance = b + 1 := ⟨balance - 1, by omega⟩
  have hmu : getMaxMarginalUtility monitor 0 lower (b + 1) = none :=
    maxMarginalUtility_none h (by omega) (by omega)
  rw [allocate, bestPartition, if_neg (by simp), getElem?_replicate_of_lt hpos, Option.bind_some,
    hmu]
  rfl

end Monitor

end Doppelganger.Part
