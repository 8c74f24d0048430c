import Doppelganger.Part.UMon

/-! Curves in `missCache`: each point below the last comes out of `get` as it was computed, while
the last point of a partition is the first of the next one, or past the end of the array. -/

namespace Doppelganger.Part

open List Lib

/-! ### Assignments -/

section Store

variable {α : Type} {writes : List (Nat × α)} {mem : Nat → α} {g : Nat → α}

theorem store_of_not_mem {i : Nat} (h : i ∉ writes.map Prod.fst) : store writes mem i = mem i := by
  induction writes generalizing mem with
  | nil => rfl
  | cons w writes ih =>
    rw [map_cons, mem_cons, not_or] at h
    show store writes (Function.update mem w.1 w.2) i = mem i
    rw [ih h.2, Function.update_of_ne h.1]

/-- Assignments that agree with `g` leave `g` where there is one. -/
theorem store_of_mem (hg : ∀ w ∈ writes, w.2 = g w.1) {i : Nat} (h : i ∈ writes.map Prod.fst) :
    store writes mem i = g i := by
  induction writes generalizing mem with
  | nil => cases h
  | cons w writes ih =>
    show store writes (Function.update mem w.1 w.2) i = g i
    by_cases hrest : i ∈ writes.map Prod.fst
    · exact ih (fun v hv => hg v (mem_cons_of_mem w hv)) hrest
    · have hi : i = w.1 := by
        rw [map_cons, mem_cons] at h
        exact h.resolve_right hrest
      rw [store_of_not_mem hrest, hi, Function.update_self]
      exact hg w (by simp)

theorem mem_shift {base i : Nat} : i ∈ (shift base writes).map Prod.fst ↔
    ∃ j ∈ writes.map Prod.fst, base + j = i := by
  simp [shift]

/-- The assignments make the points `0` to `n` of `g`. -/
structure Covers (n : Nat) (g : Nat → α) (writes : List (Nat × α)) : Prop where
  value : ∀ w ∈ writes, w.2 = g w.1
  range : ∀ i, i ∈ writes.map Prod.fst ↔ i ≤ n

theorem Covers.shift {n base i : Nat} (h : Covers n g writes) (hi : i ≤ n) :
    store (shift base writes) mem (base + i) = g i := by
  have hvalue : ∀ w ∈ Part.shift base writes, w.2 = g (w.1 - base) := by
    intro w hw
    obtain ⟨v, hv, rfl⟩ := mem_map.mp hw
    simp only [Nat.add_sub_cancel_left]
    exact h.value v hv
  rw [store_of_mem (g := fun i => g (i - base)) hvalue
    (mem_shift.mpr ⟨i, (h.range i).mpr hi, rfl⟩), Nat.add_sub_cancel_left]

theorem store_shift_below {base i : Nat} (hi : i < base) :
    store (Part.shift base writes) mem i = mem i := by
  apply store_of_not_mem
  rw [mem_shift]
  rintro ⟨j, -, hj⟩
  omega

end Store

/-! ### One curve -/

namespace UMon

/-- The misses of a cache with `n` buckets, as `getMisses` assigns them. -/
def misses (umon : UMon) : Nat → UInt64 := store umon.getMisses fun _ => 0

/-- The curve of a monitor at a number of buckets: one of its own points, or one between two of
them. -/
def curve (buckets : Nat) (umon : UMon) (b : Nat) : UInt32 :=
  if umon.buckets ≥ buckets then (umon.misses (b * (umon.buckets / buckets))).toUInt32
  else
    let upsampleRatio := buckets / umon.buckets
    if b % upsampleRatio = 0 then (umon.misses (b / upsampleRatio)).toUInt32
    else interpolate (umon.misses (b / upsampleRatio)) (umon.misses (b / upsampleRatio + 1))
      (b % upsampleRatio) upsampleRatio

/-- `getMisses` assigns to the entry past the end of `umonMisses`. -/
theorem getMisses_leaves (umon : UMon) : leaves umon.buckets umon.getMisses = true := by
  unfold leaves getMisses
  cases umon.buckets <;> simp [getMissesFrom]

end UMon

variable {buckets : Nat} {umon : UMon}

theorem downsample_covers (hpos : buckets ≠ 0) (hge : umon.buckets ≥ buckets)
    (hdvd : umon.buckets % buckets = 0) :
    Covers buckets (umon.curve buckets) (downsample buckets umon.buckets umon.misses) := by
  have hlast : buckets * (umon.buckets / buckets) = umon.buckets :=
    Nat.mul_div_cancel' (Nat.dvd_of_mod_eq_zero hdvd)
  constructor
  · intro w hw
    simp only [downsample, mem_append, mem_map, mem_range, mem_singleton] at hw
    rcases hw with ⟨j, hj, rfl⟩ | rfl
    · simp only [UMon.curve, if_pos hge]
    · simp only [UMon.curve, if_pos hge, hlast]
  · intro i
    simp only [downsample, map_append, map_map, mem_append, mem_map, mem_range, Function.comp,
      map_cons, map_nil, mem_singleton]
    constructor
    · rintro (⟨j, hj, rfl⟩ | rfl) <;> omega
    · intro hi
      rcases Nat.lt_or_eq_of_le hi with hlt | rfl
      · exact .inl ⟨i, hlt, rfl⟩
      · exact .inr rfl

theorem upsample_covers (hpos : umon.buckets ≠ 0) (hlt : umon.buckets < buckets)
    (hdvd : buckets % umon.buckets = 0) :
    Covers buckets (umon.curve buckets) (upsample buckets umon.buckets umon.misses) := by
  obtain ⟨r, hr⟩ := Nat.dvd_of_mod_eq_zero hdvd
  have hratio : buckets / umon.buckets = r := by
    rw [hr, Nat.mul_div_cancel_left _ (by omega)]
  have hrpos : 0 < r := by
    by_contra hzero
    have : r = 0 := by omega
    subst this
    omega
  have hlast : umon.curve buckets buckets = (umon.misses umon.buckets).toUInt32 := by
    unfold UMon.curve
    rw [if_neg (by omega)]
    simp only [hratio]
    rw [hr, Nat.mul_mod_left, if_pos rfl, Nat.mul_div_cancel _ hrpos]
  constructor
  · intro w hw
    simp only [upsample, hratio, mem_flatMap, mem_range, mem_append, mem_cons, mem_map,
      mem_range'_1, not_mem_nil, or_false] at hw
    obtain ⟨j, hj, (rfl | ⟨k, hk, rfl⟩) | rfl⟩ := hw
    · unfold UMon.curve
      rw [if_neg (by omega)]
      simp only [hratio]
      rw [Nat.mul_mod_right, if_pos rfl, Nat.mul_div_cancel_left _ hrpos]
    · have hmod : (r * j + k) % r = k := by
        rw [Nat.mul_add_mod, Nat.mod_eq_of_lt (by omega)]
      have hdiv : (r * j + k) / r = j := by
        rw [Nat.mul_add_div hrpos, Nat.div_eq_of_lt (by omega), Nat.add_zero]
      unfold UMon.curve
      rw [if_neg (by omega)]
      simp only [hratio, hmod, hdiv]
      rw [if_neg (by omega)]
    · exact hlast.symm
  · intro i
    simp only [upsample, hratio, mem_map, mem_flatMap, mem_range, mem_append, mem_cons,
      mem_range'_1, not_mem_nil, or_false]
    constructor
    · rintro ⟨w, ⟨j, hj, (rfl | ⟨k, hk, rfl⟩) | rfl⟩, rfl⟩
      · have := Nat.mul_le_mul_left r (Nat.succ_le_of_lt hj)
        rw [Nat.mul_succ, Nat.mul_comm r umon.buckets] at this
        simp only
        omega
      · have := Nat.mul_le_mul_left r (Nat.succ_le_of_lt hj)
        rw [Nat.mul_succ, Nat.mul_comm r umon.buckets] at this
        simp only
        omega
      · exact Nat.le_refl _
    · intro hi
      rcases Nat.lt_or_eq_of_le hi with hib | rfl
      · have hj : i / r < umon.buckets := by
          rw [Nat.div_lt_iff_lt_mul hrpos]
          omega
        have hsplit := Nat.div_add_mod i r
        have hmod := Nat.mod_lt i hrpos
        rcases Nat.eq_zero_or_pos (i % r) with hzero | hk
        · exact ⟨_, ⟨i / r, hj, .inl (.inl rfl)⟩, by simp only; omega⟩
        · exact ⟨_, ⟨i / r, hj, .inl (.inr ⟨i % r, by omega, rfl⟩)⟩, by simp only; omega⟩
      · exact ⟨_, ⟨0, by omega, .inr rfl⟩, rfl⟩

/-- The assignments of `getMissCurve` are the points of the curve, and it leaves `umonMisses`. -/
theorem getMissCurve_covers {writes : List (Nat × UInt32)} {stray : Bool}
    (h : getMissCurve buckets umon = some (writes, stray)) :
    Covers buckets (umon.curve buckets) writes ∧ stray = true := by
  unfold getMissCurve at h
  simp only at h
  split at h
  · rename_i hge
    rw [Option.ite_none_right_eq_some] at h
    obtain ⟨⟨hpos, hdvd⟩, heq⟩ := h
    cases heq
    exact ⟨downsample_covers hpos hge hdvd, umon.getMisses_leaves⟩
  · rename_i hlt
    rw [Option.ite_none_right_eq_some] at h
    obtain ⟨⟨hpos, hdvd⟩, heq⟩ := h
    cases heq
    exact ⟨upsample_covers hpos (by omega) hdvd, umon.getMisses_leaves⟩

/-! ### All curves -/

/-- The entry of a point: the last point of a partition shares it with the first of the next. -/
theorem getMissCurves_cells {size p : Nat} {monitors : List UMon}
    {missCache missCache' : Nat → UInt32} {stray stray' : Bool}
    (hfit : (p + monitors.length) * buckets < 2 ^ 32)
    (h : getMissCurves buckets size monitors p (missCache, stray) = some (missCache', stray')) :
    (∀ i < p * buckets, missCache' i = missCache i) ∧
    ∀ k umon b, monitors[k]? = some umon → b ≤ buckets → (b < buckets ∨ k + 1 = monitors.length) →
      missCache' ((p + k) * buckets + b) = umon.curve buckets b := by
  induction monitors generalizing p missCache stray with
  | nil =>
    cases h
    exact ⟨fun _ _ => rfl, fun k umon b hk => by simp at hk⟩
  | cons umon monitors ih =>
    rw [length_cons] at hfit
    have hbase : p * buckets % 2 ^ 32 = p * buckets := by
      apply Nat.mod_eq_of_lt
      have := Nat.mul_le_mul_right buckets (show p ≤ p + (monitors.length + 1) by omega)
      omega
    rw [getMissCurves] at h
    obtain ⟨⟨misses, umonStray⟩, hcurve, hrest⟩ := Option.bind_eq_some_iff.mp h
    obtain ⟨hcovers, -⟩ := getMissCurve_covers hcurve
    simp only [hbase] at hrest
    have hsucc : p + 1 + monitors.length = p + (monitors.length + 1) := by omega
    obtain ⟨hbelow, hcells⟩ := ih (by rw [hsucc]; exact hfit) hrest
    rw [Nat.succ_mul] at hbelow
    refine ⟨fun i hi => ?_, fun k umon' b hk hb hlast => ?_⟩
    · rw [hbelow i (by omega), store_shift_below hi]
    · cases k with
      | zero =>
        obtain rfl : umon = umon' := by simpa using hk
        have hcell : store (shift (p * buckets) misses) missCache (p * buckets + b) =
            umon.curve buckets b := hcovers.shift hb
        rcases hlast with hlt | hlen
        · rw [Nat.add_zero, hbelow _ (by omega), hcell]
        · obtain rfl : monitors = [] := by simpa using hlen.symm
          cases hrest
          rw [Nat.add_zero, hcell]
      | succ k =>
        have hk' : p + (k + 1) = p + 1 + k := by omega
        rw [hk']
        apply hcells k umon' b (by simpa using hk) hb
        rw [length_cons] at hlast
        omega

/-- The computation of the curves leaves `umonMisses`. -/
theorem getMissCurves_stray {size p : Nat} {monitors : List UMon} {cache : (Nat → UInt32) × Bool}
    {missCache' : Nat → UInt32} {stray' : Bool} (hne : monitors ≠ [] ∨ cache.2 = true)
    (h : getMissCurves buckets size monitors p cache = some (missCache', stray')) :
    stray' = true := by
  induction monitors generalizing p cache with
  | nil =>
    cases h
    exact hne.resolve_left fun hnil => hnil rfl
  | cons umon monitors ih =>
    obtain ⟨missCache, stray⟩ := cache
    rw [getMissCurves] at h
    obtain ⟨⟨misses, umonStray⟩, hcurve, hrest⟩ := Option.bind_eq_some_iff.mp h
    obtain ⟨-, hstray⟩ := getMissCurve_covers hcurve
    apply ih (.inr _) hrest
    simp [hstray]

/-! ### Runs -/

namespace UMonMonitor

variable {numPartitions : Nat} {m m' : UMonMonitor}

/-- The sizes that the constructor sets, and the curves of a valid `missCache`. -/
structure Valid (numPartitions numBuckets : Nat) (m : UMonMonitor) : Prop where
  buckets : m.buckets = numBuckets
  length : m.monitors.length = numPartitions
  size : m.size = numBuckets * numPartitions % 2 ^ 32
  cells : m.missCacheValid = true → numPartitions * numBuckets < 2 ^ 32 →
    ∀ k umon b, m.monitors[k]? = some umon → b ≤ m.buckets →
      (b < m.buckets ∨ k + 1 = numPartitions) →
      m.missCache (k * m.buckets + b) = umon.curve m.buckets b

theorem Valid.fill {stray : Bool} (h : m.Valid numPartitions buckets)
    (hfill : m.fill = some (m', stray)) :
    m'.Valid numPartitions buckets ∧ m'.missCacheValid = true ∧ m'.monitors = m.monitors := by
  unfold UMonMonitor.fill at hfill
  split at hfill
  · rename_i hvalid
    cases hfill
    exact ⟨h, hvalid, rfl⟩
  · obtain ⟨⟨missCache, stray'⟩, hcurves, heq⟩ := Option.map_eq_some_iff.mp hfill
    cases heq
    refine ⟨⟨h.buckets, h.length, h.size, fun _ hfit k umon b hk hb hlast => ?_⟩, rfl, rfl⟩
    have hcells := (getMissCurves_cells (by rw [h.length, h.buckets, Nat.zero_add]; exact hfit)
      hcurves).2 k umon b hk hb (by rw [h.length]; exact hlast)
    rwa [Nat.zero_add] at hcells

theorem Valid.step {hash : Nat → Address → UInt64} {op : MonitorOp}
    (h : m.Valid numPartitions buckets) (hstep : stepMonitor hash op m = some m') :
    m'.Valid numPartitions buckets := by
  cases op with
  | access partition lineAddr =>
    obtain ⟨umon, -, hrest⟩ := Option.bind_eq_some_iff.mp hstep
    obtain ⟨umon', -, hrest⟩ := Option.bind_eq_some_iff.mp hrest
    rw [Option.ite_none_left_eq_some] at hrest
    obtain ⟨hinvalid, heq⟩ := hrest
    cases heq
    exact ⟨h.buckets, by simp [h.length], h.size, fun hvalid => absurd hvalid hinvalid⟩
  | get partition bucket =>
    obtain ⟨got, hget, rfl⟩ := Option.map_eq_some_iff.mp hstep
    unfold UMonMonitor.get at hget
    rw [Option.ite_none_right_eq_some] at hget
    obtain ⟨-, hget⟩ := hget
    obtain ⟨⟨m1, stray⟩, hfill, rfl⟩ := Option.map_eq_some_iff.mp hget
    exact (h.fill hfill).1
  | reset =>
    cases hstep
    exact ⟨h.buckets, by simp [UMonMonitor.reset, h.length], h.size, fun hvalid => by
      simp [UMonMonitor.reset] at hvalid⟩

theorem run_valid {hash : Nat → Address → UInt64} {ops : List MonitorOp}
    {numLines umonLines umonBuckets : Nat} {m0 : UMonMonitor}
    (hinit : init numLines umonLines umonBuckets numPartitions buckets = some m0)
    (hrun : run (stepMonitor hash) ops m0 = some m) :
    0 < numPartitions ∧ m.Valid numPartitions buckets := by
  rw [UMonMonitor.init, Option.ite_none_right_eq_some] at hinit
  obtain ⟨hpos, hmap⟩ := hinit
  obtain ⟨umon, -, rfl⟩ := Option.map_eq_some_iff.mp hmap
  refine ⟨hpos, run_preserves (fun op s s' hs _ hstep => hs.step hstep) ?_
    (along_of_forall (fun _ _ => trivial) _ _) hrun⟩
  exact ⟨rfl, length_replicate, rfl, fun hvalid => by simp at hvalid⟩

/-- Every point of every curve comes out of `get` as the curve of the partition itself, no call
of `get` leaves an array, and the curves do not increase. -/
structure GetsCurves (m : UMonMonitor) : Prop where
  inside : ∀ p < m.monitors.length, ∀ b ≤ m.buckets, ∃ got, m.get p b = some got ∧
    got.stray = false
  own : ∀ p umon b got, m.monitors[p]? = some umon → b ≤ m.buckets → m.get p b = some got →
    got.misses = umon.curve m.buckets b
  nonincreasing : ∀ p b got got', b < m.buckets → m.get p b = some got →
    m.get p (b + 1) = some got' → got'.misses ≤ got.misses

/-- In every reachable state the last point of the last partition is past the end of `missCache`,
and each time the curves are computed both arrays are left. -/
theorem get_strays {hash : Nat → Address → UInt64} {ops : List MonitorOp}
    {numLines umonLines umonBuckets : Nat} {m0 : UMonMonitor}
    (hinit : init numLines umonLines umonBuckets numPartitions buckets = some m0)
    (hrun : run (stepMonitor hash) ops m0 = some m) :
    ¬ m.GetsCurves ∧
      ∀ p b got, m.missCacheValid = false → m.get p b = some got → got.stray = true := by
  obtain ⟨hpos, hvalid⟩ := run_valid hinit hrun
  have hlength := hvalid.length
  constructor
  · intro hcurves
    obtain ⟨got, hget, hstray⟩ := hcurves.inside (numPartitions - 1) (by omega) m.buckets
      (Nat.le_refl _)
    unfold UMonMonitor.get at hget
    rw [Option.ite_none_right_eq_some] at hget
    obtain ⟨⟨m1, stray⟩, hfill, rfl⟩ := Option.map_eq_some_iff.mp hget.2
    obtain ⟨hvalid', -, -⟩ := hvalid.fill hfill
    -- The entry is `numPartitions * buckets`, which is the size of the array.
    have hentry : (numPartitions - 1) * buckets + buckets = buckets * numPartitions := by
      rw [← Nat.succ_mul, Nat.mul_comm]
      congr 1
      omega
    simp [hvalid'.size, hvalid'.buckets, hvalid.buckets, hentry] at hstray
  · intro p b got hinvalid hget
    unfold UMonMonitor.get at hget
    rw [Option.ite_none_right_eq_some] at hget
    obtain ⟨⟨m1, stray⟩, hfill, rfl⟩ := Option.map_eq_some_iff.mp hget.2
    unfold UMonMonitor.fill at hfill
    rw [if_neg (by simp [hinvalid])] at hfill
    obtain ⟨⟨missCache, stray'⟩, hcurves, heq⟩ := Option.map_eq_some_iff.mp hfill
    cases heq
    have hne : m.monitors ≠ [] := fun hnil => by
      rw [hnil, length_nil] at hlength
      omega
    simp [getMissCurves_stray (.inl hne) hcurves]

/-- Two partitions of two buckets, after an access of partition 1. -/
theorem get_strays_two : ∃ m0 m, init 16 2 2 2 2 = some m0 ∧
    run (stepMonitor fun _ _ => 0) [.access 1 5] m0 = some m ∧ ¬ m.GetsCurves ∧
      ∀ p b got, m.missCacheValid = false → m.get p b = some got → got.stray = true :=
  ⟨_, _, rfl, rfl, @get_strays 2 2 _ (fun _ _ => 0) [.access 1 5] 16 2 2 _ rfl rfl⟩

/-- Partition 0, which has no misses, is told the miss of partition 1 at its last point. -/
theorem get_neighbour : ∃ m0 m got umon, init 16 2 2 2 2 = some m0 ∧
    run (stepMonitor fun _ _ => 0) [.access 1 5] m0 = some m ∧ m.monitors[0]? = some umon ∧
      m.get 0 2 = some got ∧ got.stray = true ∧ got.misses = 1 ∧ umon.curve 2 2 = 0 ∧
      ¬ m.GetsCurves := by
  refine ⟨_, _, _, _, rfl, rfl, rfl, rfl, rfl, rfl, rfl, fun hcurves => ?_⟩
  have hown := hcurves.own 0 _ 2 _ rfl (by decide) rfl
  exact absurd hown (by decide)

end UMonMonitor

end Doppelganger.Part
