import Doppelganger.Ideal.LruArray
import Doppelganger.Lib.Binary64
import Doppelganger.Lib.Tally
import Doppelganger.Lib.SignedWords
import Mathlib.Combinatorics.Pigeonhole

/-! The `IdealLRUPartArray` of `ideal_arrays.h` and its `IdealLRUPartReplPolicy`, which evicts from
the partition that is furthest above its target.  Doubles are Lean's `Float`. -/

namespace Doppelganger.Ideal

open Function Lib Intrusive

/-- The parameters of the constructors.  A cache has a line, and without a partition the constructor
divides by zero. -/
structure Config where
  numLines : UInt32
  partitions : UInt32
  numLines_pos : 0 < numLines.toNat
  partitions_pos : 0 < partitions.toNat

namespace Config

/-- What the constructor indexes `partInfo` with: its first loop also runs for `p == partitions`. -/
def constructed (cfg : Config) : List Nat :=
  List.range (cfg.partitions.toNat + 1) ++ (List.range cfg.numLines.toNat).map fun _ => 0

end Config

structure Entry where
  p : Nat
  used : Bool
deriving DecidableEq, Repr

/-- `size p`, `lruList.list p` and so on are fields of `partInfo[p]`.  `accesses` are those that the
monitor was told of.  `indices` are all that `partInfo` was indexed with, which is not in the
source. -/
structure IdealLRUPartReplPolicy where
  array : Nat → Entry
  size : Nat → UInt64
  targetSize : Nat → UInt64
  profHits : Nat → UInt64
  profMisses : Nat → UInt64
  profSelfEvictions : Nat → UInt64
  profExtEvictions : Nat → UInt64
  lruList : Heap Nat Nat
  accesses : List (Nat × Address)
  indices : List Nat

/-- `(double)n` -/
def int32ToDouble (n : Int32) : Float :=
  if 0 ≤ n.toInt then (UInt64.ofNat n.toInt.toNat).toFloat
  else -(UInt64.ofNat n.toInt.natAbs).toFloat

namespace IdealLRUPartReplPolicy

/-- The constructor. -/
def init (cfg : Config) : Option IdealLRUPartReplPolicy :=
  let lines := List.range cfg.numLines.toNat
  (lines.foldlM (fun (h : Heap Nat Nat) i => h.pushFront 0 i) Heap.init).map fun lruList =>
    { array := fun _ => ⟨0, true⟩
      size := lines.foldl (fun size _ => inc size 0) fun _ => 0
      targetSize := fun p =>
        if p ≤ cfg.partitions.toNat then (cfg.numLines / cfg.partitions).toUInt64 else 0
      profHits := fun _ => 0
      profMisses := fun _ => 0
      profSelfEvictions := fun _ => 0
      profExtEvictions := fun _ => 0
      lruList := lruList
      accesses := []
      indices := cfg.constructed }

/-- `part` is `mapper->getPartition(*req)`. -/
def update (id part : Nat) (lineAddr : Address) (s : IdealLRUPartReplPolicy) :
    Option IdealLRUPartReplPolicy :=
  let e := s.array id
  (if e.used then
    (reinsert e.p e.p id s.lruList).map fun lruList =>
      { s with
        profHits := inc s.profHits e.p
        lruList := lruList
        indices := e.p :: s.indices }
  else
    (reinsert e.p part id s.lruList).map fun lruList =>
      { s with
        array := Function.update s.array id ⟨part, true⟩
        size := if e.p ≠ part then inc (dec s.size e.p) part else s.size
        profExtEvictions := if e.p ≠ part then inc s.profExtEvictions e.p else s.profExtEvictions
        profSelfEvictions :=
          if e.p ≠ part then s.profSelfEvictions else inc s.profSelfEvictions e.p
        profMisses := inc s.profMisses part
        lruList := lruList
        indices := part :: e.p :: s.indices }).map fun s =>
  { s with accesses := ((s.array id).p, lineAddr) :: s.accesses }

def replaced (id : Nat) (s : IdealLRUPartReplPolicy) : IdealLRUPartReplPolicy :=
  { s with array := Function.update s.array id { s.array id with used := false } }

def diff (s : IdealLRUPartReplPolicy) (p : Nat) : Float :=
  int32ToDouble ((s.size p).toUInt32.toInt32 - (s.targetSize p).toUInt32.toInt32) /
    (s.targetSize p + 1).toFloat

/-- The body of the loop of `rank`, with `maxPartDiff` and `victimPart`. -/
def consider (s : IdealLRUPartReplPolicy) (best : Float × Nat) (p : Nat) : Float × Nat :=
  if best.1 < s.diff p ∧ s.size p ≠ 0 then (s.diff p, p) else best

def victimPart (cfg : Config) (part : Nat) (s : IdealLRUPartReplPolicy) : Nat :=
  ((List.range cfg.partitions.toNat).foldl s.consider
    (if s.size part = 0 then -2.0 else 0.0, part)).2

/-- The victim. -/
def rank (cfg : Config) (part : Nat) (s : IdealLRUPartReplPolicy) :
    Option (Nat × IdealLRUPartReplPolicy) :=
  let victimPart := s.victimPart cfg part
  if s.size victimPart ≠ 0 ∧ (s.size victimPart).toNat = (s.lruList.list victimPart).elems then
    (s.lruList.list victimPart).tail.map fun id =>
      (id, { s with
        indices := victimPart :: List.range cfg.partitions.toNat ++ part :: s.indices })
  else none

end IdealLRUPartReplPolicy

structure IdealLRUPartArray where
  lines : Lines
  rp : IdealLRUPartReplPolicy

namespace IdealLRUPartArray

def init (cfg : Config) : Option IdealLRUPartArray :=
  (IdealLRUPartReplPolicy.init cfg).map (⟨Lines.init, ·⟩)

def lookup (lineAddr : Address) (part : Nat) (updateReplacement : Bool) (a : IdealLRUPartArray) :
    Option (Option Nat × IdealLRUPartArray) :=
  (a.lines.lineMap lineAddr).elim (some (none, a)) fun lineId =>
    if updateReplacement then
      (a.rp.update lineId part lineAddr).map fun rp => (some lineId, { a with rp := rp })
    else some (some lineId, a)

/-- The line, `*wbLineAddr`, and what has been indexed. -/
def preinsert (cfg : Config) (_lineAddr : Address) (part : Nat) (a : IdealLRUPartArray) :
    Option (Nat × Address × IdealLRUPartArray) :=
  (a.rp.rank cfg part).map fun (lineId, rp) =>
    (lineId, a.lines.lineAddr lineId, { a with rp := rp })

def postinsert (lineAddr : Address) (part lineId : Nat) (a : IdealLRUPartArray) :
    Option IdealLRUPartArray :=
  (a.lines.assign lineAddr lineId).bind fun lines =>
    ((a.rp.replaced lineId).update lineId part lineAddr).map fun rp => ⟨lines, rp⟩

def step (cfg : Config) : ArrayOp → IdealLRUPartArray → Option IdealLRUPartArray
  | .lookup lineAddr part updateReplacement, a =>
    (a.lookup lineAddr part updateReplacement).map Prod.snd
  | .preinsert lineAddr part, a => (a.preinsert cfg lineAddr part).map (·.2.2)
  | .postinsert lineAddr part lineId, a => a.postinsert lineAddr part lineId

end IdealLRUPartArray

/-! ### The invariant -/

namespace IdealLRUPartReplPolicy

variable {cfg : Config} {s s' : IdealLRUPartReplPolicy} {lists : Nat → List Nat}
  {id part p new : Nat}

/-- `lists` are the lines in the intrusive lists.  After the constructor every index is one of a
partition. -/
structure Inv (cfg : Config) (s : IdealLRUPartReplPolicy) (lists : Nat → List Nat) : Prop where
  represents : Represents s.lruList lists
  mem : ∀ id p, id ∈ lists p ↔ id < cfg.numLines.toNat ∧ (s.array id).p = p
  lt : ∀ id < cfg.numLines.toNat, (s.array id).p < cfg.partitions.toNat
  counts : Counts cfg.numLines.toNat cfg.partitions.toNat s.size fun id => (s.array id).p
  target : ∀ p < cfg.partitions.toNat,
    (s.targetSize p).toNat = cfg.numLines.toNat / cfg.partitions.toNat
  indices : ∃ later, s.indices = later ++ cfg.constructed ∧ ∀ i ∈ later, i < cfg.partitions.toNat

/-- What `update` does: it puts the line in front of the list of the partition `new`. -/
structure Moves (s s' : IdealLRUPartReplPolicy) (id new : Nat) : Prop where
  lruList : reinsert (s.array id).p new id s.lruList = some s'.lruList
  moved : (s'.array id).p = new
  others : ∀ i, i ≠ id → (s'.array i).p = (s.array i).p
  size : s'.size = if (s.array id).p ≠ new then inc (dec s.size (s.array id).p) new else s.size
  targetSize : s'.targetSize = s.targetSize
  indices : ∃ more, s'.indices = more ++ s.indices ∧ ∀ i ∈ more, i = (s.array id).p ∨ i = new

/-- Only a line that is not `used` goes to the partition of the request. -/
theorem update_moves (hr : Represents s.lruList lists) (hmem : id ∈ lists (s.array id).p)
    (part : Nat) (lineAddr : Address) : ∃ s', s.update id part lineAddr = some s' ∧
      s.Moves s' id (if (s.array id).used then (s.array id).p else part) := by
  unfold IdealLRUPartReplPolicy.update
  dsimp only
  cases hused : (s.array id).used with
  | true =>
    obtain ⟨g, -, hg, -⟩ := represents_reinsert (s.array id).p (s.array id).p hr hmem
    rw [if_pos rfl, if_pos rfl, hg]
    refine ⟨_, rfl, hg, rfl, fun _ _ => rfl, (if_neg fun hne => hne rfl).symm, rfl, ?_⟩
    exact ⟨[(s.array id).p], rfl, fun i hi => .inl (List.mem_singleton.mp hi)⟩
  | false =>
    obtain ⟨g, -, hg, -⟩ := represents_reinsert (s.array id).p part hr hmem
    rw [if_neg Bool.false_ne_true, if_neg Bool.false_ne_true, hg]
    refine ⟨_, rfl, hg, ?_, fun i hi => ?_, rfl, rfl, [part, (s.array id).p], rfl, ?_⟩
    · show (Function.update s.array id ⟨part, true⟩ id).p = part
      rw [update_self]
    · show (Function.update s.array id ⟨part, true⟩ i).p = (s.array i).p
      rw [update_of_ne hi]
    · simp

/-- A list without duplicates has as many entries as there are lines of its kind. -/
theorem length_eq_tally {n : Nat} {kind : Nat → Nat} {l : List Nat} (hl : l.Nodup)
    (hmem : ∀ id, id ∈ l ↔ id < n ∧ kind id = p) : l.length = tally n kind p := by
  have hset : l.toFinset = (Finset.range n).filter (kind · = p) := by
    ext id
    rw [List.mem_toFinset, Finset.mem_filter, Finset.mem_range, hmem]
  rw [tally, ← Finset.card_filter, ← hset, List.toFinset_card_of_nodup hl]

theorem Inv.length (h : s.Inv cfg lists) (p : Nat) :
    (lists p).length = tally cfg.numLines.toNat (fun id => (s.array id).p) p :=
  length_eq_tally (h.represents.nodup p) fun id => h.mem id p

/-- A line is in its new list only. -/
theorem mem_reinserted {h : Heap Nat Nat} {old e x : Nat} (hr : Represents h lists)
    (he : e ∈ lists old) (p : Nat) :
    x ∈ Function.update (Function.update lists old ((lists old).erase e)) new
        (e :: Function.update lists old ((lists old).erase e) new) p ↔
      if x = e then p = new else x ∈ lists p := by
  have herase : ∀ p, x ∈ Function.update lists old ((lists old).erase e) p ↔
      x ≠ e ∧ x ∈ lists p := by
    intro p
    rcases eq_or_ne p old with rfl | hp
    · rw [update_self, (hr.nodup p).mem_erase_iff]
    · rw [update_of_ne hp]
      refine (and_iff_right_of_imp ?_).symm
      rintro hx rfl
      exact hp (hr.disjoint hx he)
  rcases eq_or_ne p new with rfl | hp
  · rw [update_self, List.mem_cons, herase]
    by_cases hx : x = e <;> simp [hx]
  · rw [update_of_ne hp, herase]
    by_cases hx : x = e <;> simp [hx, hp]

theorem Inv.moves (h : s.Inv cfg lists) (hm : s.Moves s' id new) (hid : id < cfg.numLines.toNat)
    (hnew : new < cfg.partitions.toNat) : ∃ lists', s'.Inv cfg lists' := by
  have hold := h.lt id hid
  have hmem := (h.mem id _).mpr ⟨hid, rfl⟩
  obtain ⟨g, lists', hg, hr, rfl⟩ := represents_reinsert (s.array id).p new h.represents hmem
  obtain rfl : g = s'.lruList := Option.some.inj (hg.symm.trans hm.lruList)
  refine ⟨_, hr, fun i p => ?_, fun i hi => ?_, ?_, hm.targetSize ▸ h.target, ?_⟩
  · rw [mem_reinserted h.represents hmem]
    split
    case isTrue heq =>
      subst heq
      rw [hm.moved, eq_comm, and_iff_right hid]
    case isFalse hne => rw [hm.others i hne, h.mem]
  · rcases eq_or_ne i id with rfl | hne
    · rw [hm.moved]
      exact hnew
    · rw [hm.others i hne]
      exact h.lt i hi
  · have hsame : ∀ i < cfg.numLines.toNat, i ≠ id → (s'.array i).p = (s.array i).p :=
      fun i _ hi => hm.others i hi
    have hlt := cfg.numLines.toNat_lt
    rw [hm.size]
    split
    case isTrue =>
      have hcounts := h.counts.move (fun i => (s'.array i).p) (by omega) hid hold
        (by rw [hm.moved]; exact hnew) hsame
      rwa [hm.moved] at hcounts
    case isFalse heq =>
      apply h.counts.congr
      intro i hi
      rcases eq_or_ne i id with rfl | hne
      · rw [hm.moved, not_not.mp heq]
      · exact hsame i hi hne
  · obtain ⟨later, hlater, hlt⟩ := h.indices
    obtain ⟨more, hmore, hmorelt⟩ := hm.indices
    refine ⟨more ++ later, by rw [hmore, hlater, List.append_assoc], fun i hi => ?_⟩
    rcases List.mem_append.mp hi with hi | hi
    · exact (hmorelt i hi).elim (· ▸ hold) (· ▸ hnew)
    · exact hlt i hi

theorem Inv.update (h : s.Inv cfg lists) (hid : id < cfg.numLines.toNat)
    (hpart : part < cfg.partitions.toNat) (lineAddr : Address) :
    ∃ s' lists', s.update id part lineAddr = some s' ∧ s'.Inv cfg lists' := by
  have hmem := (h.mem id _).mpr ⟨hid, rfl⟩
  obtain ⟨s', hs', hm⟩ := update_moves h.represents hmem part lineAddr
  obtain ⟨lists', h'⟩ := h.moves hm hid (by split; exacts [h.lt id hid, hpart])
  exact ⟨s', lists', hs', h'⟩

theorem Inv.replaced (h : s.Inv cfg lists) (id : Nat) : (s.replaced id).Inv cfg lists := by
  have hp : ∀ i, ((s.replaced id).array i).p = (s.array i).p := fun i =>
    Heap.field_keep s.array _ Entry.p rfl
  exact ⟨h.represents, fun i p => by rw [hp, h.mem], fun i hi => by rw [hp]; exact h.lt i hi,
    h.counts.congr fun i _ => hp i, h.target, h.indices⟩

/-! ### The victim -/

theorem int32ToDouble_nonneg {n : Int32} (h : 0 ≤ n.toInt) : Nonneg (int32ToDouble n) := by
  rw [int32ToDouble, if_pos h]
  exact nonneg_toFloat _

theorem toInt_size {n : UInt64} (h : n.toNat < 2 ^ 31) : n.toUInt32.toInt32.toInt = n.toNat := by
  have hn : n.toUInt32.toNat = n.toNat := by
    rw [UInt64.toNat_toUInt32]
    omega
  rw [toInt_toInt32 (hn ▸ h), hn]

/-- A partition of fewer than `2^31` lines that is not below its target has a difference that is not
negative. -/
theorem nonneg_diff (hsize : (s.size p).toNat < 2 ^ 31)
    (hle : (s.targetSize p).toNat ≤ (s.size p).toNat) : Nonneg (s.diff p) := by
  have hden : (s.targetSize p + 1).toNat = (UInt32.ofNat ((s.targetSize p).toNat + 1)).toNat := by
    rw [UInt64.toNat_add, UInt32.toNat_ofNat']
    change ((s.targetSize p).toNat + 1) % 2 ^ 64 = _
    omega
  rw [diff, toFloat_eq hden]
  apply nonneg_div
  · apply int32ToDouble_nonneg
    rw [Int32.toInt_sub, toInt_size hsize, toInt_size (Nat.lt_of_le_of_lt hle hsize),
      Int.bmod_eq_of_le (by omega) (by omega)]
    omega
  · rw [UInt32.toNat_ofNat']
    omega

/-- The partition of the request is kept, or one that has lines is taken. -/
theorem considered {l : List Nat} {best : Float × Nat} {P : Nat → Prop} (hbest : P best.2)
    (hl : ∀ p ∈ l, s.size p ≠ 0 → P p) : P (l.foldl s.consider best).2 := by
  induction l generalizing best with
  | nil => exact hbest
  | cons p l ih =>
    have hrest : ∀ q ∈ l, s.size q ≠ 0 → P q := fun q hq => hl q (List.mem_cons_of_mem p hq)
    rw [List.foldl_cons, consider]
    split
    case isTrue hp => exact ih (hl p (List.mem_cons_self ..) hp.2) hrest
    case isFalse => exact ih hbest hrest

/-- A partition that has lines is taken before the loop ends. -/
theorem size_considered_of_mem {l : List Nat} (hp : p ∈ l) (hsize : s.size p ≠ 0)
    (hdiff : -2.0 < s.diff p) (q : Nat) : s.size (l.foldl s.consider (-2.0, q)).2 ≠ 0 := by
  induction l with
  | nil => exact absurd hp List.not_mem_nil
  | cons r l ih =>
    rw [List.foldl_cons, consider]
    split
    case isTrue hr => exact considered (P := (s.size · ≠ 0)) hr.2 fun _ _ hp => hp
    case isFalse hr =>
      apply ih
      apply (List.mem_cons.mp hp).resolve_left
      rintro rfl
      exact hr ⟨hdiff, hsize⟩

theorem victimPart_lt (hpart : part < cfg.partitions.toNat) :
    s.victimPart cfg part < cfg.partitions.toNat :=
  considered (P := (· < cfg.partitions.toNat)) hpart fun _ hp _ => List.mem_range.mp hp

/-- Some partition that has lines is not below its target, as the targets are no more than all
lines. -/
theorem Inv.exists_full (h : s.Inv cfg lists) : ∃ p < cfg.partitions.toNat,
    s.size p ≠ 0 ∧ (s.targetSize p).toNat ≤ (s.size p).toNat := by
  have hpos := cfg.numLines_pos
  have hparts := cfg.partitions_pos
  have hsize : ∀ p < cfg.partitions.toNat, 0 < (s.size p).toNat → s.size p ≠ 0 := by
    rintro p - hp hzero
    rw [hzero] at hp
    exact Nat.lt_irrefl 0 hp
  rcases Nat.eq_zero_or_pos (cfg.numLines.toNat / cfg.partitions.toNat) with hzero | htarget
  · have hp := h.lt 0 hpos
    refine ⟨(s.array 0).p, hp, h.counts.ne_zero hpos hp, ?_⟩
    rw [h.target _ hp, hzero]
    exact Nat.zero_le _
  · by_contra! hall
    have hless : ∀ p ∈ Finset.range cfg.partitions.toNat,
        (s.size p).toNat < cfg.numLines.toNat / cfg.partitions.toNat := by
      intro p hp
      rw [Finset.mem_range] at hp
      by_contra hle
      have hle' := Nat.not_lt.mp hle
      have := hall p hp (hsize p hp (by omega))
      rw [h.target p hp] at this
      exact hle this
    have hsum := Finset.sum_lt_sum_of_nonempty (Finset.nonempty_range_iff.mpr hparts.ne') hless
    rw [h.counts.sum h.lt, Finset.sum_const, Finset.card_range, smul_eq_mul] at hsum
    exact absurd (Nat.mul_div_le cfg.numLines.toNat cfg.partitions.toNat) (Nat.not_le.mpr hsum)

theorem Inv.size_lt (h : s.Inv cfg lists) (hp : p < cfg.partitions.toNat) :
    (s.size p).toNat ≤ cfg.numLines.toNat := by
  rw [h.counts p hp]
  exact tally_le ..

theorem Inv.size_victimPart (h : s.Inv cfg lists) (hlt : cfg.numLines.toNat < 2 ^ 31) (part : Nat) :
    s.size (s.victimPart cfg part) ≠ 0 := by
  unfold victimPart
  split
  case isTrue =>
    obtain ⟨p, hp, hsize, htarget⟩ := h.exists_full
    have hdiff := nonneg_diff (Nat.lt_of_le_of_lt (h.size_lt hp) hlt) htarget
    exact size_considered_of_mem (List.mem_range.mpr hp) hsize (neg_two_lt hdiff) part
  case isFalse hown => exact considered (P := (s.size · ≠ 0)) hown fun _ _ hp => hp

/-- The sizes, the lists and the lines agree. -/
theorem Inv.size_eq_length (h : s.Inv cfg lists) (hp : p < cfg.partitions.toNat) :
    (s.size p).toNat = (lists p).length := by
  rw [h.counts p hp, h.length]

theorem Inv.rank (h : s.Inv cfg lists) (hpart : part < cfg.partitions.toNat) :
    (∃ id s', s.rank cfg part = some (id, s') ∧ id < cfg.numLines.toNat ∧ s'.Inv cfg lists) ∨
      s.rank cfg part = none ∧ 2 ^ 31 ≤ cfg.numLines.toNat := by
  have hvictim := victimPart_lt (s := s) hpart
  have hlength := h.size_eq_length hvictim
  by_cases hsize : s.size (s.victimPart cfg part) = 0
  · right
    refine ⟨if_neg fun hok => hok.1 hsize, ?_⟩
    by_contra! hlt
    exact h.size_victimPart hlt part hsize
  · left
    have hlist : lists (s.victimPart cfg part) ≠ [] := by
      intro hnil
      rw [hnil] at hlength
      exact hsize (UInt64.toNat_inj.mp hlength)
    have hmem := (h.mem _ _).mp (List.getLast_mem hlist)
    rw [IdealLRUPartReplPolicy.rank, h.represents.list, List.getLast?_eq_some_getLast hlist]
    refine ⟨_, _, if_pos ⟨hsize, hlength⟩, hmem.1, ?_⟩
    refine ⟨h.represents, h.mem, h.lt, h.counts, h.target, ?_⟩
    obtain ⟨later, hlater, hlt⟩ := h.indices
    refine ⟨s.victimPart cfg part :: List.range cfg.partitions.toNat ++ part :: later, ?_, ?_⟩
    · simp [hlater]
    · intro i hi
      rcases List.mem_append.mp hi with hi | hi
      · obtain rfl | hi := List.mem_cons.mp hi
        exacts [hvictim, List.mem_range.mp hi]
      · obtain rfl | hi := List.mem_cons.mp hi
        exacts [hpart, hlt i hi]

/-! ### The constructor -/

theorem foldl_inc (n : Nat) : (List.range n).foldl (fun size _ => inc size 0) (fun _ => 0) =
    fun k => if k = 0 then UInt64.ofNat n else 0 := by
  induction n with
  | zero =>
    funext k
    exact (ite_self _).symm
  | succ n ih =>
    rw [List.range_succ, List.foldl_append, ih]
    funext k
    rcases eq_or_ne k 0 with rfl | hk
    · simp [inc, UInt64.ofNat_add]
    · simp [inc, hk]

theorem inv_init (cfg : Config) : ∃ s lists, init cfg = some s ∧ s.Inv cfg lists := by
  obtain ⟨h, hh, hr⟩ := represents_fill 0 init_represents
    (List.nodup_range (n := cfg.numLines.toNat)) fun _ _ _ => List.not_mem_nil
  have hlt := cfg.numLines.toNat_lt
  rw [init, hh]
  refine ⟨_, _, rfl, hr, fun id p => ?_, fun _ _ => cfg.partitions_pos, ?_, fun p hp => ?_, ?_⟩
  · rcases eq_or_ne p 0 with rfl | hp
    · simp
    · rw [update_of_ne hp]
      exact iff_of_false List.not_mem_nil fun h => hp h.2.symm
  · dsimp only
    rw [foldl_inc]
    exact counts_const (by omega) 0
  · dsimp only
    rw [if_pos hp.le, UInt32.toNat_toUInt64, UInt32.toNat_div]
  · exact ⟨[], rfl, fun _ hi => absurd hi List.not_mem_nil⟩

end IdealLRUPartReplPolicy

namespace IdealLRUPartArray

variable {cfg : Config} {a : IdealLRUPartArray} {lists : Nat → List Nat}

structure Inv (cfg : Config) (a : IdealLRUPartArray) (lists : Nat → List Nat) : Prop where
  maps : a.lines.Maps cfg.numLines.toNat
  rp : a.rp.Inv cfg lists

theorem Inv.step (h : a.Inv cfg lists) {op : ArrayOp}
    (hop : op.Legal cfg.numLines.toNat cfg.partitions.toNat a.lines) :
    (∃ a' lists', a.step cfg op = some a' ∧ a'.Inv cfg lists') ∨
      a.step cfg op = none ∧ 2 ^ 31 ≤ cfg.numLines.toNat := by
  cases op with
  | lookup lineAddr part updateReplacement =>
    left
    rw [IdealLRUPartArray.step, IdealLRUPartArray.lookup]
    cases hfound : a.lines.lineMap lineAddr with
    | none => exact ⟨a, lists, rfl, h⟩
    | some id =>
      cases updateReplacement with
      | false => exact ⟨a, lists, rfl, h⟩
      | true =>
        have hid := ((h.maps lineAddr id).mp hfound).1
        obtain ⟨rp, lists', hrp, hinv⟩ := h.rp.update hid hop.2 lineAddr
        rw [Option.elim_some, if_pos rfl, hrp]
        exact ⟨_, lists', rfl, h.maps, hinv⟩
  | preinsert lineAddr part =>
    rw [IdealLRUPartArray.step, IdealLRUPartArray.preinsert]
    obtain ⟨id, rp, hrank, -, hinv⟩ | ⟨hrank, hlarge⟩ := h.rp.rank hop.2
    · rw [hrank]
      exact .inl ⟨_, lists, rfl, h.maps, hinv⟩
    · rw [hrank]
      exact .inr ⟨rfl, hlarge⟩
  | postinsert lineAddr part id =>
    left
    obtain ⟨hlineAddr, hpart, hmiss, hid⟩ := hop
    obtain ⟨lines, hlines, hmaps, -⟩ := h.maps.assign hlineAddr hmiss hid
    obtain ⟨rp, lists', hrp, hinv⟩ := (h.rp.replaced id).update hid hpart lineAddr
    rw [IdealLRUPartArray.step, IdealLRUPartArray.postinsert, hlines, Option.bind_some, hrp]
    exact ⟨_, lists', rfl, hmaps, hinv⟩

/-- The size of each partition, its list and its lines. -/
def Agrees (cfg : Config) (a : IdealLRUPartArray) : Prop :=
  ∃ lists, Represents a.rp.lruList lists ∧ ∀ p < cfg.partitions.toNat,
    (a.rp.size p).toNat = (lists p).length ∧
    (a.rp.size p).toNat = tally cfg.numLines.toNat (fun id => (a.rp.array id).p) p ∧
    ∀ id, id ∈ lists p ↔ id < cfg.numLines.toNat ∧ (a.rp.array id).p = p

def VictimExists (cfg : Config) (a : IdealLRUPartArray) : Prop :=
  ∀ part < cfg.partitions.toNat, ∃ victim rp, a.rp.rank cfg part = some (victim, rp) ∧
    victim < cfg.numLines.toNat

def IndicesBelow (cfg : Config) (a : IdealLRUPartArray) : Prop :=
  ∀ i ∈ a.rp.indices, i < cfg.partitions.toNat

instance (cfg : Config) (a : IdealLRUPartArray) : Decidable (a.IndicesBelow cfg) :=
  inferInstanceAs (Decidable (∀ i ∈ _, _))

theorem Inv.agrees (h : a.Inv cfg lists) : a.Agrees cfg :=
  ⟨lists, h.rp.represents, fun p hp =>
    ⟨h.rp.size_eq_length hp, h.rp.counts p hp, fun id => h.rp.mem id p⟩⟩

theorem Inv.victimExists (h : a.Inv cfg lists) (hlt : cfg.numLines.toNat < 2 ^ 31) :
    a.VictimExists cfg := by
  intro part hpart
  obtain ⟨id, rp, hrank, hid, -⟩ | ⟨-, hlarge⟩ := h.rp.rank hpart
  · exact ⟨id, rp, hrank, hid⟩
  · exact absurd hlt (Nat.not_lt.mpr hlarge)

/-- The index of the constructor. -/
theorem Inv.partitions_mem (h : a.Inv cfg lists) : cfg.partitions.toNat ∈ a.rp.indices := by
  obtain ⟨later, hlater, -⟩ := h.rp.indices
  have hmem : cfg.partitions.toNat ∈ cfg.constructed :=
    List.mem_append_left _ (List.mem_range.mpr (Nat.lt_succ_self _))
  exact hlater ▸ List.mem_append_right later hmem

theorem Inv.runs (h : a.Inv cfg lists) {ops : List ArrayOp}
    (hops : Along (IdealLRUPartArray.step cfg)
      (fun op a => op.Legal cfg.numLines.toNat cfg.partitions.toNat a.lines) ops a) :
    (∃ a' lists', run (IdealLRUPartArray.step cfg) ops a = some a' ∧ a'.Inv cfg lists') ∨
      run (IdealLRUPartArray.step cfg) ops a = none ∧ 2 ^ 31 ≤ cfg.numLines.toNat := by
  induction ops generalizing a lists with
  | nil => exact .inl ⟨a, lists, rfl, h⟩
  | cons op ops ih =>
    rw [run]
    obtain ⟨a1, lists1, ha1, h1⟩ | ⟨hnone, hlarge⟩ := h.step hops.1
    · rw [ha1]
      exact ih h1 (hops.2 a1 ha1)
    · rw [hnone]
      exact .inr ⟨rfl, hlarge⟩

end IdealLRUPartArray

/-! ### Runs of both arrays -/

namespace IdealLRUPartReplPolicy

variable {cfg : Config} {s s' : IdealLRUPartReplPolicy} {i id part : Nat}

theorem update_indices {lineAddr : Address} (h : s.update id part lineAddr = some s')
    (hi : i ∈ s.indices) : i ∈ s'.indices := by
  rw [update, Option.map_eq_some_iff] at h
  obtain ⟨s1, hs1, rfl⟩ := h
  split at hs1
  case isTrue =>
    obtain ⟨g, -, rfl⟩ := Option.map_eq_some_iff.mp hs1
    exact List.mem_cons_of_mem _ hi
  case isFalse =>
    obtain ⟨g, -, rfl⟩ := Option.map_eq_some_iff.mp hs1
    exact List.mem_cons_of_mem _ (List.mem_cons_of_mem _ hi)

theorem rank_indices (h : s.rank cfg part = some (id, s')) (hi : i ∈ s.indices) :
    i ∈ s'.indices := by
  rw [rank] at h
  split at h
  case isTrue =>
    obtain ⟨id', -, heq⟩ := Option.map_eq_some_iff.mp h
    obtain ⟨-, rfl⟩ := Prod.mk.inj heq
    exact List.mem_append_right _ (List.mem_cons_of_mem _ hi)
  case isFalse => exact nomatch h

end IdealLRUPartReplPolicy

namespace IdealLRUPartArray

/-- Nothing that has been indexed is forgotten, whatever a call is. -/
theorem step_indices {cfg : Config} {a a' : IdealLRUPartArray} {op : ArrayOp}
    (h : a.step cfg op = some a') {i : Nat} (hi : i ∈ a.rp.indices) : i ∈ a'.rp.indices := by
  cases op with
  | lookup lineAddr part updateReplacement =>
    rw [step, lookup] at h
    cases hfound : a.lines.lineMap lineAddr with
    | none =>
      rw [hfound] at h
      obtain rfl := Option.some.inj h
      exact hi
    | some id =>
      cases updateReplacement with
      | false =>
        rw [hfound] at h
        obtain rfl := Option.some.inj h
        exact hi
      | true =>
        rw [hfound, Option.elim_some, if_pos rfl, Option.map_map, Option.map_eq_some_iff] at h
        obtain ⟨rp, hrp, rfl⟩ := h
        exact IdealLRUPartReplPolicy.update_indices hrp hi
  | preinsert lineAddr part =>
    rw [step, preinsert, Option.map_map, Option.map_eq_some_iff] at h
    obtain ⟨⟨id, rp⟩, hrank, rfl⟩ := h
    exact IdealLRUPartReplPolicy.rank_indices hrank hi
  | postinsert lineAddr part id =>
    rw [step, postinsert, Option.bind_eq_some_iff] at h
    obtain ⟨lines, -, h⟩ := h
    obtain ⟨rp, hrp, rfl⟩ := Option.map_eq_some_iff.mp h
    exact IdealLRUPartReplPolicy.update_indices (s := a.rp.replaced id) hrp hi

theorem run_indices {cfg : Config} {a a' : IdealLRUPartArray} {ops : List ArrayOp}
    (h : run (step cfg) ops a = some a') {i : Nat} (hi : i ∈ a.rp.indices) :
    i ∈ a'.rp.indices := by
  have hstep : ∀ op (a a' : IdealLRUPartArray), i ∈ a.rp.indices → True →
      step cfg op a = some a' → i ∈ a'.rp.indices := fun _ _ _ hi _ ha' => step_indices ha' hi
  have hall : Along (step cfg) (fun _ _ => True) ops a :=
    along_of_forall (fun _ _ => trivial) ops a
  exact @run_preserves _ _ (step cfg) _ (fun a => i ∈ a.rp.indices) ops a a' hstep hi hall h

end IdealLRUPartArray

/-- What holds of an `IdealLRUArray` and an `IdealLRUPartArray` that work as they are meant to. -/
structure Meets (cfg : Config) (t : History) (a : IdealLRUPartArray) : Prop where
  maps : t.array.lines.Maps cfg.numLines.toNat
  evictsLru : t.EvictsLru cfg.numLines.toNat
  partMaps : a.lines.Maps cfg.numLines.toNat
  agrees : a.Agrees cfg
  victimExists : a.VictimExists cfg
  indicesBelow : a.IndicesBelow cfg

/-- Whatever the calls are, the constructor has indexed `partInfo` with `partitions`.  In legal
calls it is the only such index, and all else is as it is meant to be; only a cache of `2^31` lines,
whose size is not an `int32_t`, could be without a victim. -/
theorem arrays_never_meet (cfg : Config) (ops ops' : List ArrayOp) {t : History}
    {a : IdealLRUPartArray} (ht : History.init cfg.numLines.toNat = some t)
    (ha : IdealLRUPartArray.init cfg = some a) :
    (∀ t' a', run History.step ops t = some t' →
      run (IdealLRUPartArray.step cfg) ops' a = some a' → ¬ Meets cfg t' a') ∧
    (Along History.step (fun op t =>
        op.Legal cfg.numLines.toNat cfg.partitions.toNat t.array.lines) ops t →
      ∃ t', run History.step ops t = some t' ∧ t'.array.lines.Maps cfg.numLines.toNat ∧
        t'.EvictsLru cfg.numLines.toNat) ∧
    (Along (IdealLRUPartArray.step cfg) (fun op a =>
        op.Legal cfg.numLines.toNat cfg.partitions.toNat a.lines) ops' a →
      (∀ a', run (IdealLRUPartArray.step cfg) ops' a = some a' →
        a'.lines.Maps cfg.numLines.toNat ∧ a'.Agrees cfg ∧
        (cfg.numLines.toNat < 2 ^ 31 → a'.VictimExists cfg) ∧
        ∃ later, a'.rp.indices = later ++ cfg.constructed ∧
          ∀ i ∈ later, i < cfg.partitions.toNat) ∧
      (cfg.numLines.toNat < 2 ^ 31 → run (IdealLRUPartArray.step cfg) ops' a ≠ none)) := by
  obtain ⟨t0, list, ht0, hInv⟩ := History.inv_init cfg.numLines.toNat
  obtain rfl : t0 = t := Option.some.inj (ht0.symm.trans ht)
  obtain ⟨rp, lists, hrp, hInv'⟩ := IdealLRUPartReplPolicy.inv_init cfg
  have ha' : IdealLRUPartArray.Inv cfg a lists := by
    rw [IdealLRUPartArray.init, hrp] at ha
    obtain rfl := Option.some.inj ha
    exact ⟨Lines.maps_init _, hInv'⟩
  refine ⟨fun t' a' _ hrun hmeets => ?_, fun hops => hInv.runs cfg.numLines_pos hops,
    fun hops' => ⟨fun a' hsome => ?_, fun hlt hnone => ?_⟩⟩
  · have hmem : cfg.partitions.toNat ∈ a'.rp.indices :=
      IdealLRUPartArray.run_indices hrun ha'.partitions_mem
    exact Nat.lt_irrefl _ (hmeets.indicesBelow _ hmem)
  · obtain ⟨a1, lists1, h1, hInv1⟩ | ⟨hnone, -⟩ := ha'.runs hops'
    · obtain rfl : a1 = a' := Option.some.inj (h1.symm.trans hsome)
      exact ⟨hInv1.maps, hInv1.agrees, hInv1.victimExists, hInv1.rp.indices⟩
    · exact nomatch hnone.symm.trans hsome
  · obtain ⟨a', lists', hsome, -⟩ | ⟨-, hlarge⟩ := ha'.runs hops'
    · exact nomatch hnone.symm.trans hsome
    · exact absurd hlt (Nat.not_lt.mpr hlarge)

/-- A cache of four lines and two partitions. -/
def sampleConfig : Config := ⟨4, 2, Nat.succ_pos 3, Nat.succ_pos 1⟩

def sampleOps : List ArrayOp :=
  [.lookup 9 1 true, .preinsert 9 1, .postinsert 9 1 0, .lookup 9 1 true, .preinsert 5 0,
    .postinsert 5 0 1]

theorem arrays_never_meet_sample :
    ∃ t a t' a', History.init 4 = some t ∧ IdealLRUPartArray.init sampleConfig = some a ∧
      run History.step sampleOps t = some t' ∧
      run (IdealLRUPartArray.step sampleConfig) sampleOps a = some a' ∧
      ¬ Meets sampleConfig t' a' := by
  have hops : Along History.step (fun op t => op.Legal 4 2 t.array.lines) sampleOps
    ((History.init 4).get rfl) := by decide +kernel
  have hops' : Along (IdealLRUPartArray.step sampleConfig) (fun op a => op.Legal 4 2 a.lines)
    sampleOps ((IdealLRUPartArray.init sampleConfig).get rfl) := by decide +kernel
  obtain ⟨hnot, hruns, hruns'⟩ := arrays_never_meet sampleConfig sampleOps sampleOps rfl rfl
  obtain ⟨t', ht', -⟩ := hruns hops
  obtain ⟨a', ha'⟩ := Option.ne_none_iff_exists'.mp ((hruns' hops').2 (by decide))
  exact ⟨_, _, t', a', rfl, rfl, ht', ha', hnot t' a' ht' ha'⟩

/-- The two partitions are at the indices `0` and `1`. -/
theorem constructor_indexes_behind : ∃ t a, History.init 4 = some t ∧
    IdealLRUPartArray.init sampleConfig = some a ∧ 2 ∈ a.rp.indices ∧ ¬ Meets sampleConfig t a :=
  ⟨_, _, rfl, rfl, by decide, fun hmeets => absurd hmeets.indicesBelow (by decide)⟩

end Doppelganger.Ideal
