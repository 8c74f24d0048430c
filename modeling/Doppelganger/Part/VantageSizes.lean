import Doppelganger.Part.Vantage
import Doppelganger.Part.WayPart

/-! The sizes that `VantageReplPolicy` keeps are the numbers of lines in its partitions.  A hit
promotes a demoted line to the partition of the request and leaves `op` as it is, so a managed line
has `op` equal to `p` as long as lines go back to the partitions that they came from. -/

namespace Doppelganger.Part

open Lib Function

namespace VantageReplPolicy

variable {randInt : ℕ → UInt32 → UInt32} {s s1 s' : VantageReplPolicy} {id part p q r : ℕ}

/-! ### Lines that change their partition -/

/-- The lines and their counters stay as they are. -/
structure SameLines (s s' : VantageReplPolicy) : Prop where
  partitions : s'.partitions = s.partitions
  totalSize : s'.totalSize = s.totalSize
  p : ∀ i, (s'.array i).p = (s.array i).p
  op : ∀ i, (s'.array i).op = (s.array i).op
  size : s'.size = s.size
  extendedSize : s'.extendedSize = s.extendedSize
  underflow : s'.underflow = s.underflow

theorem SameLines.refl (s : VantageReplPolicy) : s.SameLines s :=
  ⟨rfl, rfl, fun _ => rfl, fun _ => rfl, rfl, rfl, rfl⟩

theorem SameLines.trans (h : s.SameLines s1) (h' : s1.SameLines s') : s.SameLines s' where
  partitions := h'.partitions.trans h.partitions
  totalSize := h'.totalSize.trans h.totalSize
  p i := (h'.p i).trans (h.p i)
  op i := (h'.op i).trans (h.op i)
  size := h'.size.trans h.size
  extendedSize := h'.extendedSize.trans h.extendedSize
  underflow := h'.underflow.trans h.underflow

/-- Line `id` goes to partition `q` with original partition `r`, and the counters follow it. -/
structure Moves (s : VantageReplPolicy) (id q r : ℕ) (s' : VantageReplPolicy) : Prop where
  partitions : s'.partitions = s.partitions
  totalSize : s'.totalSize = s.totalSize
  others : ∀ i, i ≠ id → (s'.array i).p = (s.array i).p ∧ (s'.array i).op = (s.array i).op
  p : (s'.array id).p = q
  op : (s'.array id).op = r
  size : s'.size = inc (dec s.size (s.array id).p) q
  extendedSize : s'.extendedSize = inc (dec s.extendedSize (s.array id).op) r
  underflow : s.size (s.array id).p ≠ 0 → s.extendedSize (s.array id).op ≠ 0 →
    s'.underflow = s.underflow

theorem SameLines.moves (h : s.SameLines s') (id : ℕ) :
    s.Moves id (s.array id).p (s.array id).op s' where
  partitions := h.partitions
  totalSize := h.totalSize
  others i _ := ⟨h.p i, h.op i⟩
  p := h.p id
  op := h.op id
  size := by rw [h.size, inc_dec_self]
  extendedSize := by rw [h.extendedSize, inc_dec_self]
  underflow _ _ := h.underflow

theorem Moves.then_same (h : s.Moves id q r s1) (h' : s1.SameLines s') : s.Moves id q r s' where
  partitions := h'.partitions.trans h.partitions
  totalSize := h'.totalSize.trans h.totalSize
  others i hi := ⟨(h'.p i).trans (h.others i hi).1, (h'.op i).trans (h.others i hi).2⟩
  p := (h'.p id).trans h.p
  op := (h'.op id).trans h.op
  size := h'.size.trans h.size
  extendedSize := h'.extendedSize.trans h.extendedSize
  underflow hp hop := h'.underflow.trans (h.underflow hp hop)

/-- A line is written, with the partitions that it had. -/
theorem sameLines_write (v : LineInfo) (hp : v.p = (s.array id).p) (hop : v.op = (s.array id).op)
    (hs' : s'.array = Function.update s.array id v) (hpart : s'.partitions = s.partitions)
    (htotal : s'.totalSize = s.totalSize) (hsize : s'.size = s.size)
    (hext : s'.extendedSize = s.extendedSize) (hunder : s'.underflow = s.underflow) :
    s.SameLines s' := by
  refine ⟨hpart, htotal, fun i => ?_, fun i => ?_, hsize, hext, hunder⟩
  · rw [hs']
    by_cases hi : i = id
    · rw [hi, update_self, hp]
    · rw [update_of_ne hi]
  · rw [hs']
    by_cases hi : i = id
    · rw [hi, update_self, hop]
    · rw [update_of_ne hi]

theorem touch_same (s : VantageReplPolicy) (id : ℕ) : s.SameLines (s.touch id) :=
  sameLines_write { s.array id with bts := (s.partInfo (s.array id).p).curBts }
    rfl rfl rfl rfl rfl rfl rfl rfl

theorem promote_moves (hpart : part < s.partitions) (hp : (s.array id).p = s.partitions) :
    s.Moves id part (s.array id).op (s.promote id part) where
  partitions := rfl
  totalSize := rfl
  others i hi := by simp [promote, hi]
  p := by simp [promote]
  op := by simp [promote]
  size := by rw [hp]; exact dec_inc s.size s.partitions part
  extendedSize := (inc_dec_self _ _).symm
  underflow hne _ := by
    rw [hp] at hne
    have hsame : inc s.size part s.partitions = s.size s.partitions :=
      update_of_ne (Nat.ne_of_gt hpart) _ _
    simp [promote, hsame, hne]

theorem hit_moves (hpart : part < s.partitions) :
    s.Moves id (if (s.array id).p = s.partitions then part else (s.array id).p) (s.array id).op
      (s.hit id part) := by
  have hstamp : ∀ s1 : VantageReplPolicy, s1.SameLines { s1 with
      array := Function.update s1.array id { s1.array id with ts := s.timestamp }
      timestamp := s.timestamp + 1 } := fun s1 =>
    sameLines_write { s1.array id with ts := s.timestamp } rfl rfl rfl rfl rfl rfl rfl rfl
  unfold hit
  by_cases hp : (s.array id).p = s.partitions
  · rw [if_pos hp, if_pos hp]
    exact (promote_moves hpart hp).then_same (hstamp _)
  · rw [if_neg hp, if_neg hp]
    exact (hstamp s).moves id

theorem fill_moves (s : VantageReplPolicy) (id part : ℕ) :
    s.Moves id part part (s.fill id part) where
  partitions := rfl
  totalSize := rfl
  others i hi := by simp [fill, hi]
  p := by simp [fill]
  op := by simp [fill]
  size := rfl
  extendedSize := rfl
  underflow hp hop := by
    change (s.underflow || s.size (s.array id).p == 0 || s.extendedSize (s.array id).op == 0) = _
    rw [beq_eq_false_iff_ne.mpr hp, beq_eq_false_iff_ne.mpr hop, Bool.or_false, Bool.or_false]

theorem demote_moves (s : VantageReplPolicy) (id : ℕ) :
    s.Moves id s.partitions (s.array id).op (s.demote id) where
  partitions := rfl
  totalSize := rfl
  others i hi := by simp [demote, hi]
  p := by simp [demote]
  op := by simp [demote]
  size := rfl
  extendedSize := (inc_dec_self _ _).symm
  underflow hp _ := by simp [demote, hp]

/-! ### The other calls -/

theorem takeFrom_same {l : UInt32} {ps : List ℕ} {curLines : UInt32}
    (h : takeFrom s l ps curLines = some s') : s.SameLines s' := by
  induction ps generalizing curLines with
  | nil => cases h
  | cons p ps ih =>
    unfold takeFrom at h
    split at h
    · obtain rfl := Option.some.inj h
      exact ⟨rfl, rfl, fun _ => rfl, fun _ => rfl, rfl, rfl, rfl⟩
    · exact ih h

theorem takeOneLine_same (h : takeOneLine randInt s = some s') : s.SameLines s' := by
  unfold takeOneLine at h
  split at h
  · obtain ⟨h1, h2, h3, h4, h5, h6, h7⟩ := takeFrom_same h
    exact ⟨h1, h2, h3, h4, h5, h6, h7⟩
  · cases h

theorem takeLines_same {n : ℕ} (h : takeLines randInt n s = some s') : s.SameLines s' := by
  induction n generalizing s with
  | zero =>
    cases h
    exact .refl _
  | succ n ih =>
    obtain ⟨s1, h1, hrest⟩ := Option.bind_eq_some_iff.mp h
    exact (takeOneLine_same h1).trans (ih hrest)

theorem setSize_same (s : VantageReplPolicy) (p : ℕ) (alloc linesToTakeAway : UInt32) :
    s.SameLines (s.setSize p alloc linesToTakeAway).2 := by
  unfold setSize
  dsimp only
  split
  · split <;> exact ⟨rfl, rfl, fun _ => rfl, fun _ => rfl, rfl, rfl, rfl⟩
  · exact ⟨rfl, rfl, fun _ => rfl, fun _ => rfl, rfl, rfl, rfl⟩

theorem setSizes_same (sizes : List UInt32) (p : ℕ) (linesToTakeAway : UInt32)
    (s : VantageReplPolicy) : s.SameLines (setSizes sizes p linesToTakeAway s).2 := by
  induction sizes generalizing p linesToTakeAway s with
  | nil => exact .refl s
  | cons alloc sizes ih => exact (setSize_same s p alloc linesToTakeAway).trans (ih _ _ _)

theorem setPartitionSizes_same {sizes : List UInt32}
    (h : setPartitionSizes randInt s sizes = some s') : s.SameLines s' := by
  unfold setPartitionSizes at h
  split at h
  · exact (setSizes_same sizes 0 0 s).trans (takeLines_same h)
  · cases h

theorem replaced_same (h : s.replaced id = some s') : s.SameLines s' := by
  unfold replaced at h
  split at h
  · obtain rfl := Option.some.inj h
    exact sameLines_write { s.array id with ts := 0, bts := 0, addr := s.incomingLineAddr }
      rfl rfl rfl rfl rfl rfl rfl rfl
  · cases h

theorem miss_moves (h : s.miss randInt id part = some s') : s.Moves id part part s' := by
  unfold miss at h
  dsimp only at h
  split at h
  · split at h
    · obtain ⟨h1, h2, h3, h4, h5, h6, h7⟩ := takeOneLine_same h
      exact (fill_moves s id part).then_same ⟨h1, h2, h3, h4, h5, h6, h7⟩
    · cases h
  · obtain rfl := Option.some.inj h
    exact fill_moves s id part

/-- A hit brings a line of the unmanaged region to the partition of the request, and a miss the
line that was replaced. -/
theorem update_moves (hpart : part < s.partitions) (h : s.update randInt id part = some s') :
    id < s.totalSize.toNat ∧
      (0 < (s.array id).ts → s.Moves id
        (if (s.array id).p = s.partitions then part else (s.array id).p) (s.array id).op s') ∧
      ((s.array id).ts = 0 → s.Moves id part part s') := by
  unfold update at h
  split at h
  case isFalse => cases h
  case isTrue hid =>
    obtain ⟨s1, h1, rfl⟩ := Option.map_eq_some_iff.mp h
    refine ⟨hid, fun hts => ?_, fun hts => ?_⟩
    · rw [if_pos hts] at h1
      obtain rfl := Option.some.inj h1
      exact (hit_moves hpart).then_same (touch_same _ id)
    · rw [if_neg (by omega)] at h1
      exact (miss_moves h1).then_same (touch_same s1 id)

theorem considerDemotion_moves (h : s.considerDemotion id = some s') :
    s.SameLines s' ∨
      id < s.totalSize.toNat ∧ s.Moves id s.partitions (s.array id).op s' := by
  have hinfo : ∀ (s1 : VantageReplPolicy) (partInfo : ℕ → VantagePartInfo),
      s1.SameLines { s1 with partInfo := partInfo } := fun _ _ =>
    ⟨rfl, rfl, fun _ => rfl, fun _ => rfl, rfl, rfl, rfl⟩
  obtain rfl | ⟨s1, partInfo, rfl | ⟨hid, rfl⟩, rfl⟩ := considerDemotion_cases h
  · exact .inl (.refl _)
  · exact .inl (hinfo _ _)
  · exact .inr ⟨hid, (demote_moves s id).then_same (hinfo _ _)⟩

/-- Ranking only demotes lines. -/
theorem rank_keeps {P : VantageReplPolicy → Prop} {addr : ℕ} {cands : List ℕ}
    (hsame : ∀ s s', P s → s.SameLines s' → P s')
    (hdemote : ∀ s s' id, P s → id < s.totalSize.toNat →
      s.Moves id s.partitions (s.array id).op s' → P s')
    (hs : P s) (h : s.rank addr cands = some (id, s')) : P s' := by
  have hrecords : ∀ {cands : List ℕ} {s s' : VantageReplPolicy},
      cands.foldlM recordCandidate s = some s' → s.SameLines s' := by
    intro cands
    induction cands with
    | nil =>
      intro s s' h
      cases h
      exact .refl _
    | cons c cands ih =>
      intro s s' h
      rw [List.foldlM_cons] at h
      obtain ⟨s1, h1, hrest⟩ := Option.bind_eq_some_iff.mp h
      obtain rfl := recordCandidate_cases h1
      obtain ⟨h1, h2, h3, h4, h5, h6, h7⟩ := ih hrest
      exact ⟨h1, h2, h3, h4, h5, h6, h7⟩
  have hdemotes : ∀ {cands : List ℕ} {s s' : VantageReplPolicy}, P s →
      cands.foldlM considerDemotion s = some s' → P s' := by
    intro cands
    induction cands with
    | nil =>
      intro s s' hs h
      cases h
      exact hs
    | cons c cands ih =>
      intro s s' hs h
      rw [List.foldlM_cons] at h
      obtain ⟨s1, h1, hrest⟩ := Option.bind_eq_some_iff.mp h
      rcases considerDemotion_moves h1 with hsame1 | ⟨hc, hmoves⟩
      · exact ih (hsame s s1 hs hsame1) hrest
      · exact ih (hdemote s s1 c hs hc hmoves) hrest
  obtain ⟨s1, h1, h2⟩ := rank_cases h
  have hstart : s.SameLines { s with incomingLineAddr := addr } :=
    ⟨rfl, rfl, fun _ => rfl, fun _ => rfl, rfl, rfl, rfl⟩
  exact hdemotes (hsame s s1 hs (hstart.trans (hrecords h1))) h2

/-! ### The sizes -/

/-- The counters are the numbers of lines, and none has wrapped. -/
structure Counted (s : VantageReplPolicy) : Prop where
  size : Counts s.totalSize.toNat (s.partitions + 1) s.size fun i => (s.array i).p
  extendedSize : Counts s.totalSize.toNat (s.partitions + 1) s.extendedSize fun i => (s.array i).op
  p : ∀ i < s.totalSize.toNat, (s.array i).p < s.partitions + 1
  op : ∀ i < s.totalSize.toNat, (s.array i).op < s.partitions + 1
  underflow : s.underflow = false

theorem SameLines.counted (hs : s.Counted) (h : s.SameLines s') : s'.Counted := by
  constructor
  case size =>
    rw [h.totalSize, h.partitions, h.size]
    exact hs.size.congr fun i _ => h.p i
  case extendedSize =>
    rw [h.totalSize, h.partitions, h.extendedSize]
    exact hs.extendedSize.congr fun i _ => h.op i
  case p =>
    intro i hi
    rw [h.p, h.partitions]
    exact hs.p i (by rwa [← h.totalSize])
  case op =>
    intro i hi
    rw [h.op, h.partitions]
    exact hs.op i (by rwa [← h.totalSize])
  case underflow => exact h.underflow.trans hs.underflow

theorem Moves.counted (hs : s.Counted) (h : s.Moves id q r s') (hid : id < s.totalSize.toNat)
    (hq : q < s.partitions + 1) (hr : r < s.partitions + 1) : s'.Counted := by
  have hn : s.totalSize.toNat < 2 ^ 63 := Nat.lt_trans s.totalSize.toNat_lt (by decide)
  constructor
  case size =>
    rw [h.totalSize, h.partitions, h.size]
    have hmove := hs.size.move (fun i => (s'.array i).p) hn hid (hs.p id hid)
      (by rw [h.p]; exact hq) fun i _ hi => (h.others i hi).1
    rwa [h.p] at hmove
  case extendedSize =>
    rw [h.totalSize, h.partitions, h.extendedSize]
    have hmove := hs.extendedSize.move (fun i => (s'.array i).op) hn hid (hs.op id hid)
      (by rw [h.op]; exact hr) fun i _ hi => (h.others i hi).2
    rwa [h.op] at hmove
  case p =>
    intro i hi
    rw [h.partitions]
    by_cases heq : i = id
    · rw [heq, h.p]
      exact hq
    · rw [(h.others i heq).1]
      exact hs.p i (by rwa [← h.totalSize])
  case op =>
    intro i hi
    rw [h.partitions]
    by_cases heq : i = id
    · rw [heq, h.op]
      exact hr
    · rw [(h.others i heq).2]
      exact hs.op i (by rwa [← h.totalSize])
  case underflow =>
    exact (h.underflow (hs.size.ne_zero hid (hs.p id hid))
      (hs.extendedSize.ne_zero hid (hs.op id hid))).trans hs.underflow

theorem step_counted (op : VantageOp) (s s' : VantageReplPolicy) (hs : s.Counted)
    (hop : Mapped op s) (h : step randInt op s = some s') : s'.Counted := by
  cases op with
  | update id part =>
    obtain ⟨hid, hhit, hmiss⟩ := update_moves hop h
    have hpart : part < s.partitions + 1 := Nat.lt_succ_of_lt hop
    rcases Nat.eq_zero_or_pos (s.array id).ts with hts | hts
    · exact (hmiss hts).counted hs hid hpart hpart
    · refine (hhit hts).counted hs hid ?_ (hs.op id hid)
      split
      · exact hpart
      · exact hs.p id hid
  | rank addr cands =>
    obtain ⟨⟨id, s1⟩, hrank, rfl⟩ := Option.map_eq_some_iff.mp h
    refine rank_keeps (fun s s' hs hsame => hsame.counted hs) (fun s s' id hs hid hmoves => ?_) hs
      hrank
    exact hmoves.counted hs hid (Nat.lt_succ_self _) (hs.op id hid)
  | replaced id => exact (replaced_same h).counted hs
  | setPartitionSizes sizes => exact (setPartitionSizes_same h).counted hs

section Start

variable {partitions : ℕ} {totalSize assoc targetManagedSize partGranularity : UInt32}
  {partSlack maxAperture : Float} {smoothTransients : Bool}

theorem start_counted : (start partitions totalSize assoc targetManagedSize partSlack maxAperture
    partGranularity smoothTransients).Counted where
  size := counts_const (Nat.lt_trans totalSize.toNat_lt (by decide)) partitions
  extendedSize := counts_const (Nat.lt_trans totalSize.toNat_lt (by decide)) partitions
  p _ _ := Nat.lt_succ_self _
  op _ _ := Nat.lt_succ_self _
  underflow := rfl

end Start

/-- The sizes are the numbers of lines that are in each partition, and that came with it; the
unmanaged region is one of the partitions. -/
structure Sizes (s : VantageReplPolicy) : Prop where
  size : ∀ p ≤ s.partitions,
    (s.size p).toNat = tally s.totalSize.toNat (fun i => (s.array i).p) p
  extendedSize : ∀ p ≤ s.partitions,
    (s.extendedSize p).toNat = tally s.totalSize.toNat (fun i => (s.array i).op) p
  total : ∑ p ∈ Finset.range (s.partitions + 1), (s.size p).toNat = s.totalSize.toNat
  extendedTotal :
    ∑ p ∈ Finset.range (s.partitions + 1), (s.extendedSize p).toNat = s.totalSize.toNat
  underflow : s.underflow = false

theorem Counted.sizes (hs : s.Counted) : s.Sizes where
  size p hp := hs.size p (Nat.lt_succ_of_le hp)
  extendedSize p hp := hs.extendedSize p (Nat.lt_succ_of_le hp)
  total := hs.size.sum hs.p
  extendedTotal := hs.extendedSize.sum hs.op
  underflow := hs.underflow

end VantageReplPolicy

/-- The sizes are the numbers of lines of the partitions. -/
structure WayPartRepl.Sizes (s : WayPartRepl) : Prop where
  size : ∀ p < s.partitions,
    (s.size p).toNat = tally s.totalSize.toNat (fun i => (s.array i).p) p
  total : ∑ p ∈ Finset.range s.partitions, (s.size p).toNat = s.totalSize.toNat
  underflow : s.underflow = false

theorem WayPartRepl.Counted.sizes {s : WayPartRepl} (hs : s.Counted) : s.Sizes where
  size := hs.counts
  total := hs.counts.sum hs.lines
  underflow := hs.underflow

/-- In every run of either policy the sizes are the numbers of lines, they make up the cache, and
none is decremented at zero. -/
theorem sizes_count_lines :
    (∀ partitions totalSize ways testMode s ops s', 0 < partitions →
      WayPartRepl.start partitions totalSize ways testMode = some s →
      Along WayPartRepl.step WayPartRepl.Mapped ops s →
      run WayPartRepl.step ops s = some s' → s'.Sizes) ∧
    ∀ randInt partitions totalSize assoc targetManagedSize partSlack maxAperture partGranularity
      smoothTransients s ops s',
      s = VantageReplPolicy.start partitions totalSize assoc targetManagedSize partSlack maxAperture
        partGranularity smoothTransients →
      Along (VantageReplPolicy.step randInt) VantageReplPolicy.Mapped ops s →
      run (VantageReplPolicy.step randInt) ops s = some s' → s'.Sizes := by
  constructor
  · intro partitions totalSize ways testMode s ops s' hpos hs hops hrun
    have hcounted := run_preserves WayPartRepl.step_counted (WayPartRepl.start_counted hpos hs) hops
      hrun
    exact hcounted.sizes
  · rintro randInt partitions totalSize assoc targetManagedSize partSlack maxAperture
      partGranularity smoothTransients s ops s' rfl hops hrun
    have hcounted := run_preserves VantageReplPolicy.step_counted VantageReplPolicy.start_counted
      hops hrun
    exact hcounted.sizes

/-- A miss in a cache of four ways, and one in a cache of two lines. -/
theorem sizes_count_lines_miss :
    (∃ s s', WayPartRepl.start 2 8 4 false = some s ∧
      run WayPartRepl.step [.rank 1 5 [4, 5, 6, 7], .insert 6] s = some s' ∧ s'.Sizes) ∧
    ∃ s', run (VantageReplPolicy.step fun _ n => n) [.rank 7 [0, 1], .replaced 0, .update 0 1]
      (VantageReplPolicy.start 2 2 2 1 0.05 0.4 4 false) = some s' ∧ s'.Sizes := by
  constructor
  · refine ⟨_, _, rfl, rfl, ?_⟩
    exact sizes_count_lines.1 2 8 4 false _ [.rank 1 5 [4, 5, 6, 7], .insert 6] _ (by decide) rfl
      (by decide +kernel) rfl
  · refine ⟨_, rfl, ?_⟩
    exact sizes_count_lines.2 (fun _ n => n) 2 2 2 1 0.05 0.4 4 false _
      [.rank 7 [0, 1], .replaced 0, .update 0 1] _ rfl (by decide +kernel) rfl

namespace VantageReplPolicy

/-! ### Original partitions -/

variable {randInt : ℕ → UInt32 → UInt32} {s s' : VantageReplPolicy} {id part q r : ℕ}

/-- What the comment on `op` says, and what follows for the sizes: the extended size of a partition
counts its lines and the demoted ones that were its own last. -/
structure Documented (s : VantageReplPolicy) : Prop where
  op : ∀ i < s.totalSize.toNat, (s.array i).p ≠ s.partitions → (s.array i).op = (s.array i).p
  extended : ∀ p < s.partitions, (s.extendedSize p).toNat = (s.size p).toNat +
    tally s.totalSize.toNat
      (fun i => decide ((s.array i).p = s.partitions ∧ (s.array i).op = p)) true
  le : ∀ p < s.partitions, s.size p ≤ s.extendedSize p

/-- A demoted line is promoted by a request of the partition that it came from. -/
def PromotesOwn : VantageOp → VantageReplPolicy → Prop
  | .update id part, s => id < s.totalSize.toNat → 0 < (s.array id).ts →
      (s.array id).p = s.partitions → part = (s.array id).op
  | _, _ => True

/-- With the counters right, the sizes follow from the lines. -/
theorem Counted.documented (hs : s.Counted)
    (hop : ∀ i < s.totalSize.toNat, (s.array i).p ≠ s.partitions →
      (s.array i).op = (s.array i).p) : s.Documented := by
  have hextended : ∀ p < s.partitions, (s.extendedSize p).toNat = (s.size p).toNat +
      tally s.totalSize.toNat
        (fun i => decide ((s.array i).p = s.partitions ∧ (s.array i).op = p)) true := by
    intro p hp
    rw [hs.extendedSize p (by omega), hs.size p (by omega)]
    unfold tally
    rw [← Finset.sum_add_distrib]
    apply sum_unchanged
    intro i hi
    by_cases hmanaged : (s.array i).p = s.partitions
    · rw [if_neg (show ¬(s.array i).p = p by omega)]
      simp [hmanaged]
    · simp [hmanaged, hop i hi hmanaged]
  refine ⟨hop, hextended, fun p hp => UInt64.le_iff_toNat_le.mpr ?_⟩
  rw [hextended p hp]
  exact Nat.le_add_right _ _

/-- A line goes to the unmanaged region, or to the partition that it comes with. -/
theorem Moves.documented (hs' : s'.Counted) (hs : s.Documented) (h : s.Moves id q r s')
    (hq : q = s.partitions ∨ r = q) : s'.Documented := by
  refine hs'.documented fun i hi hmanaged => ?_
  rw [h.totalSize] at hi
  rw [h.partitions] at hmanaged
  by_cases heq : i = id
  · rw [heq, h.p] at hmanaged
    rw [heq, h.p, h.op]
    exact hq.resolve_left hmanaged
  · rw [(h.others i heq).1] at hmanaged
    rw [(h.others i heq).1, (h.others i heq).2]
    exact hs.op i hi hmanaged

theorem SameLines.documented (hs' : s'.Counted) (hs : s.Documented) (h : s.SameLines s') :
    s'.Documented := by
  refine hs'.documented fun i hi hmanaged => ?_
  rw [h.p, h.op]
  rw [h.totalSize] at hi
  rw [h.p, h.partitions] at hmanaged
  exact hs.op i hi hmanaged

/-- A hit or a miss keeps the relation exactly when it promotes no line of another partition. -/
theorem update_documented_iff (hs : s.Counted) (hdoc : s.Documented) (hpart : part < s.partitions)
    (h : s.update randInt id part = some s') :
    s'.Documented ↔ PromotesOwn (.update id part) s := by
  have hs' : s'.Counted := step_counted (.update id part) s s' hs hpart h
  obtain ⟨hid, hhit, hmiss⟩ := update_moves hpart h
  rcases Nat.eq_zero_or_pos (s.array id).ts with hts | hts
  · refine iff_of_true ((hmiss hts).documented hs' hdoc (.inr rfl)) fun _ hpos => ?_
    omega
  have hmoves := hhit hts
  by_cases hp : (s.array id).p = s.partitions
  · rw [if_pos hp] at hmoves
    constructor
    case mp =>
      intro hdoc' _ _ _
      have hmanaged : (s'.array id).p ≠ s'.partitions := by
        rw [hmoves.p, hmoves.partitions]
        omega
      have hop := hdoc'.op id (by rwa [hmoves.totalSize]) hmanaged
      rw [hmoves.op, hmoves.p] at hop
      exact hop.symm
    case mpr =>
      intro hown
      exact hmoves.documented hs' hdoc (.inr (hown hid hts hp).symm)
  · rw [if_neg hp] at hmoves
    exact iff_of_true (hmoves.documented hs' hdoc (.inr (hdoc.op id hid hp)))
      fun _ _ hunmanaged => absurd hunmanaged hp

theorem step_documented (op : VantageOp) (s : VantageReplPolicy) (hs : s.Counted)
    (hdoc : s.Documented) (hop : Mapped op s) :
    step randInt op s = none ∧ PromotesOwn op s ∨
      ∃ s', step randInt op s = some s' ∧ s'.Counted ∧ (s'.Documented ↔ PromotesOwn op s) := by
  cases hstep : step randInt op s with
  | none =>
    left
    refine ⟨rfl, ?_⟩
    cases op with
    | update id part =>
      -- a hit does not fail
      intro hid hts
      rw [step, update, if_pos hid, if_pos hts] at hstep
      cases hstep
    | rank addr cands => trivial
    | replaced id => trivial
    | setPartitionSizes sizes => trivial
  | some s' =>
    right
    have hs' := step_counted op s s' hs hop hstep
    refine ⟨s', rfl, hs', ?_⟩
    cases op with
    | update id part => exact update_documented_iff hs hdoc hop hstep
    | rank addr cands =>
      obtain ⟨⟨id, s1⟩, hrank, rfl⟩ := Option.map_eq_some_iff.mp hstep
      have hkeeps := rank_keeps (P := fun s => s.Counted ∧ s.Documented)
        (fun s s' h hsame =>
          ⟨hsame.counted h.1, hsame.documented (hsame.counted h.1) h.2⟩)
        (fun s s' id h hid hmoves => by
          have hcounted := hmoves.counted h.1 hid (Nat.lt_succ_self _) (h.1.op id hid)
          exact ⟨hcounted, hmoves.documented hcounted h.2 (.inl rfl)⟩) ⟨hs, hdoc⟩ hrank
      exact iff_of_true hkeeps.2 trivial
    | replaced id => exact iff_of_true ((replaced_same hstep).documented hs' hdoc) trivial
    | setPartitionSizes sizes =>
      exact iff_of_true ((setPartitionSizes_same hstep).documented hs' hdoc) trivial

/-- The relation between the partitions of each line, and between the sizes, holds all along a run
exactly when every demoted line that is promoted goes back to the partition that it came from. -/
theorem documented_iff_promotes_own (randInt : ℕ → UInt32 → UInt32) (partitions : ℕ)
    (totalSize assoc targetManagedSize : UInt32) (partSlack maxAperture : Float)
    (partGranularity : UInt32) (smoothTransients : Bool) (ops : List VantageOp)
    (hops : Along (step randInt) Mapped ops (start partitions totalSize assoc targetManagedSize
      partSlack maxAperture partGranularity smoothTransients)) :
    Always (step randInt) Documented ops (start partitions totalSize assoc targetManagedSize
      partSlack maxAperture partGranularity smoothTransients) ↔
    Along (step randInt) PromotesOwn ops (start partitions totalSize assoc targetManagedSize
      partSlack maxAperture partGranularity smoothTransients) :=
  always_iff_along step_documented ops start_counted
    (start_counted.documented fun _ _ hmanaged => absurd rfl hmanaged) hops

/-- A cache of two lines, one of them for the partitions. -/
def pair : VantageReplPolicy := start 2 2 2 1 0.05 0.4 4 false

/-- Partition 0 misses twice, which demotes its first line, and then partition 1 hits that line. -/
def promotesOther : List VantageOp :=
  [.rank 7 [0, 1], .replaced 0, .update 0 0, .rank 8 [0, 1], .replaced 1, .update 1 0, .update 0 1]

/-- The line is then in partition 1, and counts for partition 0 still. -/
theorem promotion_keeps_op : Along (step fun _ n => n) Mapped promotesOther pair ∧
    ¬Always (step fun _ n => n) Documented promotesOther pair := by
  constructor
  · decide +kernel
  · intro hall
    have hlast : (run (step fun _ n => n) promotesOther pair).map
        (fun s => (s.totalSize, s.partitions, (s.array 0).p, (s.array 0).op)) =
      some (2, 2, 1, 0) := by
      decide +kernel
    obtain ⟨s, hrun, hs⟩ := Option.map_eq_some_iff.mp hlast
    simp only [Prod.mk.injEq] at hs
    obtain ⟨htotal, hpartitions, hp, hop⟩ := hs
    have hsame := (hall.last hrun).op 0 (by rw [htotal]; decide) (by omega)
    omega

/-- Partition 0 hits the demoted line instead. -/
theorem documented_iff_promotes_own_pair :
    Always (step fun _ n => n) Documented (promotesOther.dropLast ++ [.update 0 0]) pair ↔
      Along (step fun _ n => n) PromotesOwn (promotesOther.dropLast ++ [.update 0 0]) pair :=
  documented_iff_promotes_own (fun _ n => n) 2 2 2 1 0.05 0.4 4 false _ (by decide +kernel)

end VantageReplPolicy

end Doppelganger.Part
