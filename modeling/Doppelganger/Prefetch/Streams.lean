import Doppelganger.Prefetch.StreamPrefetcher
import Doppelganger.Lib.Run
import Doppelganger.Lib.SignedWords
import Mathlib.Tactic.Ring
import Mathlib.Tactic.Linarith

/-! Where the prefetches go.  The last prefetch of an entry is a whole number of strides away from
its last access.  `fetchDepth` is a quotient of words without a sign: it is that number for an
ascending stride, and `0` or `1` for a descending one, but when an ascending stride of two or more
has left the last prefetch behind, it is large. -/

namespace Doppelganger.Prefetch

open Function Lib

/-- A prefetch of a line of the same page, ahead by one to eight strides, that is not prefetched
already. -/
structure Issued.Good (pf : Issued) : Prop where
  page : pageOf pf.lineAddr = pageOf pf.demand
  ahead : ∃ k : Int, 1 ≤ k ∧ k ≤ 8 ∧
    ((posOf pf.lineAddr).toNat : Int) = (posOf pf.demand).toNat + k * pf.stride.toInt
  moves : pf.stride ≠ 0
  fresh : pf.valid = false

theorem toNat_posOf (lineAddr : Address) : (posOf lineAddr).toNat = lineAddr.toNat % 64 := by
  have hand : lineAddr.toNat &&& 63 = lineAddr.toNat % 64 := Nat.and_two_pow_sub_one_eq_mod _ 6
  rw [posOf, UInt64.toNat_toUInt32, UInt64.toNat_and]
  change (lineAddr.toNat &&& 63) % 2 ^ 32 = _
  omega

theorem toNat_pageOf (lineAddr : Address) : (pageOf lineAddr).toNat = lineAddr.toNat / 64 := by
  rw [pageOf, UInt64.toNat_shiftRight]
  exact Nat.shiftRight_eq_div_pow _ 6

theorem posOf_lt (lineAddr : Address) : (posOf lineAddr).toNat < 64 := by
  rw [toNat_posOf]
  exact Nat.mod_lt _ (Nat.succ_pos 63)

theorem toInt_ne_zero {n : Int32} : n ≠ 0 ↔ n.toInt ≠ 0 :=
  not_congr ⟨fun h => congrArg Int32.toInt h, fun h => Int32.toInt_inj.mp h⟩

/-! ### The depth -/

section Depth

variable {last lastPrefetch pos : UInt32} {stride : Int32} {k : Int}

/-- The quotient, as a signed number. -/
def depth (lastPrefetch last : UInt32) (stride : Int32) : Int32 :=
  ((lastPrefetch - last) / stride.toUInt32).toInt32

theorem depth_ascending (hlast : last.toNat < 64) (hprefetch : lastPrefetch.toNat < 64)
    (hk : (lastPrefetch.toNat : Int) = last.toNat + k * stride.toInt) (hstride : 0 < stride.toInt)
    (hsmall : stride.toInt < 64) (hnonneg : 0 ≤ k) :
    (depth lastPrefetch last stride).toInt = k := by
  have hdivisor := toNat_toUInt32 stride
  have hsub : (lastPrefetch - last).toNat = (2 ^ 32 - last.toNat + lastPrefetch.toNat) % 2 ^ 32 :=
    UInt32.toNat_sub ..
  have hprod : 0 ≤ k * stride.toInt := Int.mul_nonneg hnonneg hstride.le
  have hdiff : ((lastPrefetch - last).toNat : Int) = k * stride.toInt := by omega
  have hquot : (((lastPrefetch - last) / stride.toUInt32).toNat : Int) = k := by
    rw [UInt32.toNat_div, Int.natCast_ediv, hdiff, hdivisor,
      Int.emod_eq_of_lt hstride.le (by omega), Int.mul_ediv_cancel _ hstride.ne']
  have hle : ((lastPrefetch - last) / stride.toUInt32).toNat ≤ (lastPrefetch - last).toNat := by
    rw [UInt32.toNat_div]
    exact Nat.div_le_self ..
  rw [depth, toInt_toInt32 (by omega), hquot]

theorem depth_one (hlast : last.toNat < 64) (hprefetch : lastPrefetch.toNat < 64)
    (hk : (lastPrefetch.toNat : Int) = last.toNat + k) (hneg : k < 0) :
    (depth lastPrefetch last 1).toInt = k := by
  have hsub : (lastPrefetch - last).toNat = (2 ^ 32 - last.toNat + lastPrefetch.toNat) % 2 ^ 32 :=
    UInt32.toNat_sub ..
  have hquot : ((lastPrefetch - last) / (1 : Int32).toUInt32).toNat = (lastPrefetch - last).toNat :=
    (UInt32.toNat_div ..).trans (Nat.div_one _)
  rw [depth, toInt_toInt32_of_le (by omega), hquot]
  omega

theorem depth_behind (hlast : last.toNat < 64) (hbehind : lastPrefetch.toNat < last.toNat)
    (hstride : 2 ≤ stride.toInt) (hsmall : stride.toInt < 64) :
    8 ≤ (depth lastPrefetch last stride).toInt := by
  have hdivisor := toNat_toUInt32 stride
  have hsub : (lastPrefetch - last).toNat = (2 ^ 32 - last.toNat + lastPrefetch.toNat) % 2 ^ 32 :=
    UInt32.toNat_sub ..
  have hlow : 2 ≤ stride.toUInt32.toNat := by omega
  have hhigh : stride.toUInt32.toNat < 64 := by omega
  have hlt : (lastPrefetch - last).toNat / stride.toUInt32.toNat < 2 ^ 31 := by
    rw [Nat.div_lt_iff_lt_mul (by omega)]
    omega
  have hge : 8 ≤ (lastPrefetch - last).toNat / stride.toUInt32.toNat := by
    rw [Nat.le_div_iff_mul_le (by omega)]
    omega
  rw [← UInt32.toNat_div] at hlt hge
  rw [depth, toInt_toInt32 hlt]
  omega

theorem depth_descending (hlast : last.toNat < 64) (hprefetch : lastPrefetch.toNat < 64)
    (hk : (lastPrefetch.toNat : Int) = last.toNat + k * stride.toInt) (hstride : stride.toInt < 0)
    (hsmall : -64 < stride.toInt) :
    (depth lastPrefetch last stride).toInt = if k = 1 then 1 else 0 := by
  have hdivisor := toNat_toUInt32 stride
  have hsub : (lastPrefetch - last).toNat = (2 ^ 32 - last.toNat + lastPrefetch.toNat) % 2 ^ 32 :=
    UInt32.toNat_sub ..
  have hquot : ((lastPrefetch - last) / stride.toUInt32).toNat = if k = 1 then 1 else 0 := by
    rw [UInt32.toNat_div]
    split
    case isTrue hone =>
      rw [hone, Int.one_mul] at hk
      have heq : (lastPrefetch - last).toNat = stride.toUInt32.toNat := by omega
      rw [heq, Nat.div_self (by omega)]
    case isFalse hone =>
      apply Nat.div_eq_of_lt
      rcases lt_or_ge 1 k with hmany | hfew
      · -- more than one stride below
        have hprod : k * stride.toInt ≤ 2 * stride.toInt :=
          Int.mul_le_mul_of_nonpos_right (by omega) hstride.le
        omega
      · have hprod : 0 ≤ k * stride.toInt :=
          Int.mul_nonneg_of_nonpos_of_nonpos (by omega) hstride.le
        omega
  rw [depth, toInt_toInt32 (by rw [hquot]; split <;> decide), hquot]
  split <;> rfl

end Depth

/-! ### The entries -/

namespace Entry

/-- The last prefetch is a whole number of strides away from the last access, at most eight
ahead. -/
structure Inv (e : Entry) : Prop where
  last : e.lastPos.toNat < 64
  lastPrefetch : e.lastPrefetchPos.toNat < 64
  aligned : ∃ k ≤ 8, (e.lastPrefetchPos.toNat : Int) = e.lastPos.toNat + k * e.stride.toInt

/-- The access at `pos` does not make the entry divide by zero, or go on from a prefetch that an
ascending stride of two or more has left behind. -/
def Sound (pos : UInt32) (e : Entry) : Prop :=
  e.stride = (pos - e.lastPos).toInt32 → 1 ≤ e.conf →
    e.stride ≠ 0 ∧ (2 ≤ e.stride.toInt → e.lastPrefetchPos < e.lastPos →
      e.valid (e.lastPrefetchPos + e.stride.toUInt32).toNat = true)

instance (pos : UInt32) (e : Entry) : Decidable (e.Sound pos) :=
  inferInstanceAs (Decidable (_ → _ → _ ∧ (_ → _ → _)))

variable {e : Entry} {pos : UInt32} {stride : Int32} {k : Int}

/-- How deep the last prefetch is, when it is not left behind. -/
theorem depth_ahead (hlast : e.lastPos.toNat < 64) (hprefetch : e.lastPrefetchPos.toNat < 64)
    (hne : stride.toInt ≠ 0) (hsmall : -64 < stride.toInt ∧ stride.toInt < 64)
    (hale : (e.lastPrefetchPos.toNat : Int) = e.lastPos.toNat + k * stride.toInt)
    (hfront : 2 ≤ stride.toInt → 0 ≤ k) :
    (depth e.lastPrefetchPos e.lastPos stride).toInt < 1 ∧ k ≠ 1 ∨
      (depth e.lastPrefetchPos e.lastPos stride).toInt = k ∧ 1 ≤ k := by
  rcases lt_or_gt_of_ne hne with hneg | hpos
  · rw [depth_descending hlast hprefetch hale hneg (by omega)]
    split
    case isTrue h => exact .inr ⟨h.symm, h.ge⟩
    case isFalse h => exact .inl ⟨Int.zero_lt_one, h⟩
  · rcases lt_or_ge k 0 with hback | hfwd
    · obtain hone : stride.toInt = 1 := by
        by_contra hmore
        exact absurd (hfront (by omega)) (by omega)
      obtain rfl : stride = 1 := Int32.toInt_inj.mp hone
      rw [hone, Int.mul_one] at hale
      rw [depth_one hlast hprefetch hale hback]
      exact .inl ⟨by omega, by omega⟩
    · rw [depth_ascending hlast hprefetch hale hpos (by omega) hfwd]
      rcases lt_or_ge k 1 with hzero | hone
      · exact .inl ⟨hzero, by omega⟩
      · exact .inr ⟨rfl, hone⟩

/-- Where the next prefetch goes, when the last one is not left behind. -/
theorem target_ahead (hlast : e.lastPos.toNat < 64) (hprefetch : e.lastPrefetchPos.toNat < 64)
    (hpos : pos.toNat < 64) (hstride : stride.toInt = pos.toNat - e.lastPos.toNat)
    (hne : stride.toInt ≠ 0) (hk : k ≤ 8)
    (hale : (e.lastPrefetchPos.toNat : Int) = e.lastPos.toNat + k * stride.toInt)
    (hfront : 2 ≤ stride.toInt → 0 ≤ k) :
    ∃ m, 1 ≤ m ∧ m ≤ 8 ∧ (e.target pos stride).2.toInt = m ∧
      ((e.target pos stride).1.toNat : Int) = (pos.toNat + m * stride.toInt) % 2 ^ 32 := by
  have hword := toNat_toUInt32 stride
  have hone : (1 : Int32).toInt = 1 := rfl
  unfold target
  rcases depth_ahead hlast hprefetch hne (by omega) hale hfront with ⟨hlow, -⟩ | ⟨heq, hlow⟩
  · rw [if_pos (Int32.lt_iff_toInt_lt.mpr (by rw [hone]; exact hlow))]
    refine ⟨1, by omega, by omega, hone, ?_⟩
    rw [UInt32.toNat_add]
    omega
  · rw [if_neg (by rw [Int32.lt_iff_toInt_lt, hone]; exact Int.not_lt.mpr (heq ▸ hlow))]
    refine ⟨k, hlow, hk, heq, ?_⟩
    rw [UInt32.toNat_add]
    omega

/-- Where it goes when it is. -/
theorem target_behind (pos : UInt32) (hlast : e.lastPos.toNat < 64)
    (hbehind : e.lastPrefetchPos.toNat < e.lastPos.toNat) (hstride : 2 ≤ stride.toInt)
    (hsmall : stride.toInt < 64) :
    (e.target pos stride).1 = e.lastPrefetchPos + stride.toUInt32 := by
  have hdepth := depth_behind hlast hbehind hstride hsmall
  have hone : (1 : Int32).toInt = 1 := rfl
  unfold target
  rw [if_neg]
  rw [Int32.lt_iff_toInt_lt, hone]
  exact Int.not_lt.mpr (le_trans (by decide) hdepth)

end Entry

/-! ### The lines -/

/-- The line of a prefetch, at the position `next` of the page. -/
theorem prefetch_line (lineAddr : Address) {next : UInt32} (hnext : next.toNat < 64) :
    pageOf (lineAddr + next.toUInt64 - (posOf lineAddr).toUInt64) = pageOf lineAddr ∧
      posOf (lineAddr + next.toUInt64 - (posOf lineAddr).toUInt64) = next := by
  have hlt := lineAddr.toNat_lt
  have hline : (lineAddr + next.toUInt64 - (posOf lineAddr).toUInt64).toNat =
      lineAddr.toNat / 64 * 64 + next.toNat := by
    rw [UInt64.toNat_sub, UInt64.toNat_add, UInt32.toNat_toUInt64, UInt32.toNat_toUInt64,
      toNat_posOf]
    omega
  constructor
  · rw [← UInt64.toNat_inj, toNat_pageOf, toNat_pageOf, hline]
    omega
  · rw [← UInt32.toNat_inj, toNat_posOf, hline]
    omega

/-- The line of the second prefetch. -/
theorem second_line {lineAddr : Address} {first next : UInt32} {pos : UInt64} {stride : Int32}
    (hnext : (next.toNat : Int) = first.toNat + stride.toInt) (hlt : next.toNat < 64) :
    lineAddr + first.toUInt64 - pos + stride.toInt64.toUInt64 =
      lineAddr + next.toUInt64 - pos := by
  have hword := toNat_toUInt64 stride
  have hsum : first.toUInt64 + stride.toInt64.toUInt64 = next.toUInt64 := by
    rw [← UInt64.toNat_inj, UInt64.toNat_add, UInt32.toNat_toUInt64, UInt32.toNat_toUInt64]
    omega
  rw [← hsum, ← UInt64.add_assoc, UInt64.sub_eq_add_neg, UInt64.sub_eq_add_neg, UInt64.add_assoc,
    UInt64.add_comm (-pos), ← UInt64.add_assoc]

/-! ### The accesses -/

namespace Entry

variable {e : Entry} {req : Request} {stride : Int32} {k : Int} {short : Bool}

/-- A line that is not valid, ahead by one to eight strides. -/
theorem good_line {next : UInt32} {m : Int} (hstride : stride.toInt ≠ 0) (hone : 1 ≤ m) (hm : m ≤ 8)
    (hnext : (next.toNat : Int) = (posOf req.lineAddr).toNat + m * stride.toInt)
    (hlt : next.toNat < 64) :
    (⟨req.lineAddr, req.lineAddr + next.toUInt64 - (posOf req.lineAddr).toUInt64, stride,
      false⟩ : Issued).Good := by
  obtain ⟨hpage, hpos⟩ := prefetch_line req.lineAddr hlt
  exact ⟨hpage, ⟨m, hone, hm, by rw [hpos]; exact hnext⟩, toInt_ne_zero.mpr hstride, rfl⟩

/-- The line of the second prefetch, one stride further on. -/
theorem good_second {next : UInt32} {m : Int} (hstride : stride.toInt ≠ 0) (hone : 1 ≤ m)
    (hm : m < 8) (hnext : (next.toNat : Int) = (posOf req.lineAddr).toNat + m * stride.toInt)
    (hlt : next.toNat < 64) (hlt' : (next + stride.toUInt32).toNat < 64) :
    ((next + stride.toUInt32).toNat : Int) =
        (posOf req.lineAddr).toNat + (m + 1) * stride.toInt ∧
      (⟨req.lineAddr, req.lineAddr + next.toUInt64 - (posOf req.lineAddr).toUInt64 +
        stride.toInt64.toUInt64, stride, false⟩ : Issued).Good := by
  have hword := toNat_toUInt32 stride
  have hlow := stride.le_toInt
  have hhigh := stride.toInt_lt
  have hstep : ((next + stride.toUInt32).toNat : Int) = next.toNat + stride.toInt := by
    rw [UInt32.toNat_add] at hlt' ⊢
    omega
  have hsecond : ((next + stride.toUInt32).toNat : Int) =
      (posOf req.lineAddr).toNat + (m + 1) * stride.toInt := by
    rw [hstep, hnext, Int.add_mul, Int.one_mul, Int.add_assoc]
  rw [second_line hstep hlt']
  exact ⟨hsecond, good_line hstride (by omega) (by omega) hsecond hlt'⟩

/-- What the prefetches of an access leave, when the last one is not left behind. -/
theorem fetch_ahead (short : Bool) (hlast : e.lastPos.toNat < 64)
    (hprefetch : e.lastPrefetchPos.toNat < 64)
    (hstride : stride.toInt = (posOf req.lineAddr).toNat - e.lastPos.toNat)
    (hne : stride.toInt ≠ 0) (hk : k ≤ 8)
    (hale : (e.lastPrefetchPos.toNat : Int) = e.lastPos.toNat + k * stride.toInt)
    (hfront : 2 ≤ stride.toInt → 0 ≤ k) :
    ∃ e' issued, e.fetch req (posOf req.lineAddr) stride short = some (e', issued) ∧
      (∀ pf ∈ issued, pf.Good) ∧ e'.stride = e.stride ∧ e'.lastPos = e.lastPos ∧
      e'.lastPrefetchPos.toNat < 64 ∧ ∃ k ≤ 8,
        (e'.lastPrefetchPos.toNat : Int) = (posOf req.lineAddr).toNat + k * stride.toInt := by
  have hpos := posOf_lt req.lineAddr
  obtain ⟨m, hone, hm, hdepth, hplace⟩ :=
    target_ahead hlast hprefetch hpos hstride hne hk hale hfront
  have hbound : -512 < m * stride.toInt ∧ m * stride.toInt < 512 := by
    constructor <;> nlinarith
  unfold fetch
  rw [if_neg (toInt_ne_zero.mpr hne)]
  generalize e.target (posOf req.lineAddr) stride = t at hdepth hplace
  obtain ⟨prefetchPos, fetchDepth⟩ := t
  dsimp only at hdepth hplace ⊢
  split
  case isTrue hissue =>
    obtain ⟨hlt, hvalid⟩ := hissue
    have hlt' : prefetchPos.toNat < 64 := UInt32.lt_iff_toNat_lt.mp hlt
    have hfirst : (prefetchPos.toNat : Int) = (posOf req.lineAddr).toNat + m * stride.toInt := by
      omega
    have hgood := good_line hne hone hm hfirst hlt'
    rw [hvalid]
    split
    case isTrue hsecond =>
      obtain ⟨-, hless, hnext, hnextvalid⟩ := hsecond
      have hnextlt : (prefetchPos + stride.toUInt32).toNat < 64 := UInt32.lt_iff_toNat_lt.mp hnext
      have hless' : m < 8 := hdepth ▸ Int32.lt_iff_toInt_lt.mp hless
      obtain ⟨hsecond, hgood'⟩ := good_second hne hone hless' hfirst hlt' hnextlt
      rw [hnextvalid]
      refine ⟨_, _, rfl, ?_, rfl, rfl, hnextlt, m + 1, by omega, hsecond⟩
      intro pf hpf
      obtain rfl | hpf := List.mem_cons.mp hpf
      · exact hgood
      · exact List.mem_singleton.mp hpf ▸ hgood'
    case isFalse =>
      refine ⟨_, _, rfl, ?_, rfl, rfl, hlt', m, hm, hfirst⟩
      intro pf hpf
      exact List.mem_singleton.mp hpf ▸ hgood
  case isFalse =>
    refine ⟨e, [], rfl, fun _ hpf => absurd hpf List.not_mem_nil, rfl, rfl, hprefetch, k - 1,
      by omega, ?_⟩
    rw [hale, Int.sub_mul]
    omega

/-- The first prefetch, when the last one is left behind and its line is not valid. -/
theorem fetch_behind (hlast : e.lastPos.toNat < 64)
    (hbehind : e.lastPrefetchPos.toNat < e.lastPos.toNat)
    (hstride : stride.toInt = (posOf req.lineAddr).toNat - e.lastPos.toNat)
    (htwo : 2 ≤ stride.toInt)
    (hale : (e.lastPrefetchPos.toNat : Int) = e.lastPos.toNat + k * stride.toInt)
    (hvalid : e.valid (e.lastPrefetchPos + stride.toUInt32).toNat = false) :
    ∃ e' issued, e.fetch req (posOf req.lineAddr) stride short = some (e', issued) ∧
      ∃ pf ∈ issued, ¬ pf.Good := by
  have hpos := posOf_lt req.lineAddr
  have hword := toNat_toUInt32 stride
  have hback : k < 0 := by
    by_contra hfwd
    have hprod := Int.mul_nonneg (Int.not_lt.mp hfwd) (show 0 ≤ stride.toInt by omega)
    omega
  have hle : (k + 1) * stride.toInt ≤ 0 :=
    Int.mul_nonpos_of_nonpos_of_nonneg (by omega) (by omega)
  rw [Int.add_mul, Int.one_mul] at hle
  have hplace : ((e.lastPrefetchPos + stride.toUInt32).toNat : Int) =
      (posOf req.lineAddr).toNat + k * stride.toInt := by
    rw [UInt32.toNat_add]
    omega
  have hlt : (e.lastPrefetchPos + stride.toUInt32).toNat < 64 := by omega
  obtain ⟨-, hline⟩ := prefetch_line req.lineAddr hlt
  have hbad : ¬ (⟨req.lineAddr, req.lineAddr + (e.lastPrefetchPos + stride.toUInt32).toUInt64 -
      (posOf req.lineAddr).toUInt64, stride, false⟩ : Issued).Good := by
    rintro ⟨-, ⟨k', hone, -, hahead⟩, -, -⟩
    dsimp only at hahead
    rw [hline, hplace] at hahead
    have hprod := Int.mul_nonneg (show 0 ≤ k' - k by omega) (show 0 ≤ stride.toInt by omega)
    have hsame : k' * stride.toInt = k * stride.toInt := by omega
    have hcancel := Int.eq_of_mul_eq_mul_right (by omega) hsame
    omega
  have htarget := target_behind (posOf req.lineAddr) hlast hbehind htwo (by omega)
  unfold fetch
  rw [if_neg (toInt_ne_zero.mpr (by omega))]
  generalize e.target (posOf req.lineAddr) stride = t at htarget
  obtain ⟨prefetchPos, fetchDepth⟩ := t
  dsimp only at htarget ⊢
  subst htarget
  rw [if_pos ⟨UInt32.lt_iff_toNat_lt.mpr hlt, hvalid⟩, hvalid]
  split
  case isTrue => exact ⟨_, _, rfl, _, List.mem_cons_self .., hbad⟩
  case isFalse => exact ⟨_, _, rfl, _, List.mem_cons_self .., hbad⟩

/-- Nothing is issued when its line is valid. -/
theorem fetch_kept (hlast : e.lastPos.toNat < 64)
    (hbehind : e.lastPrefetchPos.toNat < e.lastPos.toNat) (htwo : 2 ≤ stride.toInt)
    (hsmall : stride.toInt < 64)
    (hvalid : e.valid (e.lastPrefetchPos + stride.toUInt32).toNat = true) :
    e.fetch req (posOf req.lineAddr) stride short = some (e, []) := by
  have htarget := target_behind (posOf req.lineAddr) hlast hbehind htwo hsmall
  unfold fetch
  rw [if_neg (toInt_ne_zero.mpr (by omega))]
  generalize e.target (posOf req.lineAddr) stride = t at htarget
  obtain ⟨prefetchPos, fetchDepth⟩ := t
  dsimp only at htarget ⊢
  subst htarget
  rw [if_neg fun hissue => Bool.false_ne_true (hissue.2.symm.trans hvalid)]

/-- A stride that is repeated. -/
theorem Inv.toInt_stride (h : e.Inv) (req : Request) :
    (posOf req.lineAddr - e.lastPos).toInt32.toInt =
      (posOf req.lineAddr).toNat - e.lastPos.toNat := by
  have hlast := h.last
  have hpos := posOf_lt req.lineAddr
  exact toInt_sub_toInt32 (by omega) (by omega)

/-- What `predict` leaves is aligned with the access. -/
theorem predict_sound (short : Bool) (h : e.Inv) (hsound : e.Sound (posOf req.lineAddr)) :
    ∃ e' issued, e.predict req (posOf req.lineAddr) short = some (e', issued) ∧
      (∀ pf ∈ issued, pf.Good) ∧ e'.lastPrefetchPos.toNat < 64 ∧ ∃ k ≤ 8,
        (e'.lastPrefetchPos.toNat : Int) =
          (posOf req.lineAddr).toNat + k * e'.stride.toInt := by
  have hpos := posOf_lt req.lineAddr
  have hlast := h.last
  have hint := h.toInt_stride req
  obtain ⟨k, hk, hale⟩ := h.aligned
  have hnone : ∀ pf ∈ ([] : List Issued), pf.Good := fun _ hpf => absurd hpf List.not_mem_nil
  unfold predict
  dsimp only
  split
  case isTrue hsame =>
    rw [← hsame] at hint ⊢
    -- the last access has moved on by one stride
    have hkept : (e.lastPrefetchPos.toNat : Int) =
        (posOf req.lineAddr).toNat + (k - 1) * e.stride.toInt := by
      rw [hale, Int.sub_mul]
      omega
    split
    case isTrue hconf =>
      obtain ⟨hne, hvalid⟩ := hsound hsame (by omega)
      have hzero := toInt_ne_zero.mp hne
      by_cases hbehind : 2 ≤ e.stride.toInt ∧ e.lastPrefetchPos.toNat < e.lastPos.toNat
      · obtain ⟨htwo, hless⟩ := hbehind
        have hmarked := hvalid htwo (UInt32.lt_iff_toNat_lt.mpr hless)
        exact ⟨_, [], fetch_kept (e := { e with conf := min (e.conf + 1) 3 }) hlast hless htwo
          (by omega) hmarked, hnone, h.lastPrefetch, k - 1, by omega, hkept⟩
      · have hfront : 2 ≤ e.stride.toInt → 0 ≤ k := by
          intro htwo
          by_contra hneg
          have hprod := Int.mul_le_mul_of_nonneg_right (show k ≤ -1 by omega)
            (show 0 ≤ e.stride.toInt by omega)
          exact hbehind ⟨htwo, by omega⟩
        obtain ⟨e', issued, hfetch, hgood, hstride, -, hlt, k', hk', hplace⟩ :=
          fetch_ahead (e := { e with conf := min (e.conf + 1) 3 }) short hlast h.lastPrefetch
            hint hzero hk hale hfront
        exact ⟨e', issued, hfetch, hgood, hlt, k', hk', by rw [hstride]; exact hplace⟩
    case isFalse => exact ⟨_, [], rfl, hnone, h.lastPrefetch, k - 1, by omega, hkept⟩
  case isFalse =>
    refine ⟨_, [], rfl, hnone, ?_⟩
    have hmoved : (e.mispredict (posOf req.lineAddr)
        (posOf req.lineAddr - e.lastPos).toInt32).lastPrefetchPos = posOf req.lineAddr := rfl
    rw [hmoved]
    exact ⟨hpos, 0, by omega, by rw [Int.zero_mul, Int.add_zero]⟩

theorem predict_unsound (short : Bool) (h : e.Inv) (hsound : ¬ e.Sound (posOf req.lineAddr)) :
    e.predict req (posOf req.lineAddr) short = none ∨
      ∃ e' issued, e.predict req (posOf req.lineAddr) short = some (e', issued) ∧
        ∃ pf ∈ issued, ¬ pf.Good := by
  have hint := h.toInt_stride req
  obtain ⟨k, -, hale⟩ := h.aligned
  obtain ⟨hsame, hrest⟩ := Classical.not_imp.mp hsound
  obtain ⟨hconf, hbad⟩ := Classical.not_imp.mp hrest
  unfold predict
  dsimp only
  rw [if_pos hsame, if_pos (by omega), ← hsame]
  rw [← hsame] at hint
  by_cases hzero : e.stride = 0
  · left
    unfold fetch
    rw [if_pos hzero]
  · right
    obtain ⟨htwo, hmarked⟩ := Classical.not_imp.mp fun hfront => hbad ⟨hzero, hfront⟩
    obtain ⟨hless, hvalid⟩ := Classical.not_imp.mp hmarked
    exact fetch_behind (e := { e with conf := min (e.conf + 1) 3 }) h.last
      (UInt32.lt_iff_toNat_lt.mp hless) hint htwo hale (Bool.eq_false_iff.mpr hvalid)

/-- A demand hit on a prefetched line leaves all but that line alone. -/
theorem close_keeps (pos : UInt32) (respCycle : UInt64) (e : Entry) :
    (e.close pos respCycle).1.stride = e.stride ∧ (e.close pos respCycle).1.conf = e.conf ∧
    (e.close pos respCycle).1.lastPos = e.lastPos ∧
    (e.close pos respCycle).1.lastPrefetchPos = e.lastPrefetchPos ∧
    ∀ p ≠ pos.toNat, (e.close pos respCycle).1.valid p = e.valid p := by
  unfold close
  split
  case isTrue => exact ⟨rfl, rfl, rfl, rfl, fun p hp => update_of_ne hp ..⟩
  case isFalse => exact ⟨rfl, rfl, rfl, rfl, fun _ _ => rfl⟩

theorem Inv.close (h : e.Inv) (pos : UInt32) (respCycle : UInt64) :
    (e.close pos respCycle).1.Inv := by
  obtain ⟨hstride, -, hlast, hprefetch, -⟩ := e.close_keeps pos respCycle
  exact ⟨by rw [hlast]; exact h.last, by rw [hprefetch]; exact h.lastPrefetch,
    by rw [hstride, hlast, hprefetch]; exact h.aligned⟩

/-- The line after one that is left behind is not that of the access. -/
theorem sound_close (h : e.Inv) (req : Request) :
    (e.close (posOf req.lineAddr) req.respCycle).1.Sound (posOf req.lineAddr) ↔
      e.Sound (posOf req.lineAddr) := by
  obtain ⟨hstride, hconf, hlast, hprefetch, hvalid⟩ :=
    e.close_keeps (posOf req.lineAddr) req.respCycle
  unfold Sound
  rw [hstride, hconf, hlast, hprefetch]
  apply imp_congr_right
  intro hsame
  apply imp_congr_right
  intro _
  apply and_congr_right
  intro _
  apply imp_congr_right
  intro htwo
  apply imp_congr_right
  intro hless
  rw [hvalid]
  have hint := h.toInt_stride req
  rw [← hsame] at hint
  have hword := toNat_toUInt32 e.stride
  have hbelow := UInt32.lt_iff_toNat_lt.mp hless
  have hbound := h.last
  obtain ⟨k, -, hale⟩ := h.aligned
  have hback : k ≤ -1 := by
    by_contra hfwd
    have hprod := Int.mul_nonneg (show 0 ≤ k by omega) (show 0 ≤ e.stride.toInt by omega)
    omega
  have hprod := Int.mul_le_mul_of_nonneg_right hback (show 0 ≤ e.stride.toInt by omega)
  rw [UInt32.toNat_add]
  omega

theorem hit_sound (h : e.Inv) (hsound : e.Sound (posOf req.lineAddr)) :
    ∃ e' respCycle issued, e.hit req = some (e', respCycle, issued) ∧ e'.Inv ∧
      ∀ pf ∈ issued, pf.Good := by
  have hclosed := h.close (posOf req.lineAddr) req.respCycle
  obtain ⟨e1, issued, hpredict, hgood, hlt, hale⟩ :=
    predict_sound (e.close (posOf req.lineAddr) req.respCycle).2.2 hclosed
      ((sound_close h req).mpr hsound)
  refine ⟨{ e1 with
      lastLastPos := (e.close (posOf req.lineAddr) req.respCycle).1.lastPos
      lastPos := posOf req.lineAddr },
    (e.close (posOf req.lineAddr) req.respCycle).2.1, issued, ?_,
    ⟨posOf_lt req.lineAddr, hlt, hale⟩, hgood⟩
  unfold hit
  dsimp only
  rw [hpredict]
  rfl

theorem hit_unsound (h : e.Inv) (hsound : ¬ e.Sound (posOf req.lineAddr)) :
    e.hit req = none ∨ ∃ e' respCycle issued, e.hit req = some (e', respCycle, issued) ∧
      ∃ pf ∈ issued, ¬ pf.Good := by
  have hclosed := h.close (posOf req.lineAddr) req.respCycle
  unfold hit
  dsimp only
  obtain hnone | ⟨e', issued, hpredict, hbad⟩ :=
    predict_unsound (e.close (posOf req.lineAddr) req.respCycle).2.2 hclosed
      (fun hs => hsound ((sound_close h req).mp hs))
  · rw [hnone]
    exact .inl rfl
  · rw [hpredict]
    exact .inr ⟨_, _, issued, rfl, hbad⟩

/-- A new entry starts at the access, with the stride one. -/
theorem inv_alloc (e : Entry) (cycle ts : UInt64) (lineAddr : Address) :
    Inv { e.alloc cycle with lastPos := posOf lineAddr, ts := ts } := by
  have hone : (1 : Int32).toInt = 1 := rfl
  have hpos := posOf_lt lineAddr
  have hzero : (0 : UInt32).toNat < 64 := by decide
  refine ⟨hpos, hzero, -(posOf lineAddr).toNat, by omega, ?_⟩
  show (0 : Int) = (posOf lineAddr).toNat + -((posOf lineAddr).toNat : Int) * 1
  omega

theorem Inv.stamp (h : e.Inv) (ts : UInt64) : Inv { e with ts := ts } :=
  ⟨h.last, h.lastPrefetch, h.aligned⟩

theorem inv_init : Entry.init.Inv := ⟨by decide, by decide, 0, by decide, by decide⟩

end Entry

/-! ### Streams of accesses -/

namespace StreamPrefetcher

variable {s : StreamPrefetcher} {req : Request}

def Inv (s : StreamPrefetcher) : Prop := ∀ idx, (s.array idx).Inv

/-- The access is not a load, misses the entries, or is sound for the entry that it hits. -/
def Sound (req : Request) (s : StreamPrefetcher) : Prop :=
  req.type = .GETS → ∀ idx ∈ s.find (pageOf req.lineAddr),
    (s.array idx).Sound (posOf req.lineAddr)

instance (req : Request) (s : StreamPrefetcher) : Decidable (s.Sound req) :=
  inferInstanceAs (Decidable (_ → _))

theorem Inv.miss (h : s.Inv) (req : Request) : (s.miss req).Inv := by
  intro idx
  unfold StreamPrefetcher.miss
  cases s.victim req.cycle with
  | none => exact h idx
  | some cand =>
    rw [Option.elim_some]
    dsimp only
    rcases eq_or_ne idx cand with rfl | hidx
    · rw [update_self]
      exact Entry.inv_alloc ..
    · rw [update_of_ne hidx]
      exact h idx

theorem step_sound (h : s.Inv) (hsound : s.Sound req) :
    ∃ s', step req s = some s' ∧ s'.Inv ∧ ∀ pf ∈ issued req s, pf.Good := by
  have hnone : ∀ pf ∈ ([] : List Issued), pf.Good := fun _ hpf => absurd hpf List.not_mem_nil
  unfold step issued access
  by_cases htype : req.type = .GETS
  · rw [if_neg (not_not.mpr htype)]
    cases hfind : s.find (pageOf req.lineAddr) with
    | none => exact ⟨_, rfl, h.miss req, hnone⟩
    | some idx =>
      obtain ⟨e', respCycle, pfs, hhit, hinv, hgood⟩ :=
        Entry.hit_sound ((h idx).stamp s.timestamp) (hsound htype idx hfind)
      rw [Option.elim_some, hhit]
      refine ⟨_, rfl, fun i => ?_, hgood⟩
      dsimp only
      rcases eq_or_ne i idx with rfl | hi
      · rw [update_self]
        exact hinv
      · rw [update_of_ne hi]
        exact h i
  · rw [if_pos htype]
    exact ⟨s, rfl, h, hnone⟩

theorem step_unsound (h : s.Inv) (hsound : ¬ s.Sound req) :
    step req s = none ∨ ∃ pf ∈ issued req s, ¬ pf.Good := by
  obtain ⟨htype, hrest⟩ := Classical.not_imp.mp hsound
  push Not at hrest
  obtain ⟨idx, hfind, hbad⟩ := hrest
  rw [Option.mem_def] at hfind
  unfold step issued access
  rw [if_neg (not_not.mpr htype), hfind, Option.elim_some]
  obtain hnone | ⟨e', respCycle, pfs, hhit, hwrong⟩ :=
    Entry.hit_unsound ((h idx).stamp s.timestamp) hbad
  · rw [hnone]
    exact .inl rfl
  · rw [hhit]
    exact .inr hwrong

theorem inv_init : init.Inv := fun _ => Entry.inv_init

/-- For every stream of accesses, whatever the parent answers: no access divides by zero and every
prefetch is of a line of the page that is ahead by one to eight strides and not prefetched already,
if and only if every access is sound. -/
theorem prefetches_good_iff (reqs : List Request) :
    (run step reqs init ≠ none ∧ ∀ pf ∈ emitted step issued reqs init, pf.Good) ↔
      Along step Sound reqs init :=
  sound_iff_along (fun _ _ => step_sound) (fun _ _ => step_unsound) reqs inv_init

/-- Loads of the positions `0, 2, 4, 6, 7, 10, 12, 14` of a page. -/
def stream : List Request :=
  [64, 66, 68, 70, 71, 74, 76, 78].map fun lineAddr => ⟨.GETS, lineAddr, 0, 0, 0, 0⟩

/-- The access to `7` leaves the stride two, and `12` comes back to it without a prefetch: the
access to `14` prefetches `12`. -/
theorem stream_prefetches_behind :
    emitted step issued stream init = [⟨70, 72, 2, false⟩, ⟨78, 76, 2, false⟩] ∧
      ¬ (⟨78, 76, 2, false⟩ : Issued).Good := by
  constructor
  · decide +kernel
  · rintro ⟨-, ⟨k, hone, -, hahead⟩, -, -⟩
    change (12 : Int) = 14 + k * 2 at hahead
    omega

end StreamPrefetcher

end Doppelganger.Prefetch
