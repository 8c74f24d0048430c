import Doppelganger.Detailed.MemParam
import Doppelganger.Lib.Radix

/-! The address decoders of `detailed_mem.cpp`: `ReturnChannel`, which picks a channel, and
`AddressMap`, which cuts the address into the fields of that channel.  Shifts are those of the
machine, which takes the width of a shift of 64 bits modulo 64. -/

namespace Doppelganger.Detailed

open Lib Radix

/-! ### The decoders -/

/-- The radix of a field of that many bits. -/
def radixOf (width : UInt32) : ℕ := 2 ^ (width.toNat % 64)

/-- The place of a line in its channel. -/
structure Place where
  row : UInt32
  col : UInt32
  rank : UInt32
  bank : UInt32
deriving DecidableEq, Repr

/-- The parts that an address is cut into. -/
inductive Part
  | colLow
  | colHigh
  | chnl
  | rank
  | bank
deriving DecidableEq, Repr

/-- The low bits of an address, and the address shifted by them. -/
def takeBits (addr : UInt64) (width : UInt32) : UInt32 × UInt64 :=
  ((addr &&& ((1 <<< width.toUInt64) - 1)).toUInt32, addr >>> width.toUInt64)

namespace MemParam

variable (p : MemParam)

def colLowWidth : UInt32 :=
  if p.channelDataWidthLog < p.byteOffsetWidth then p.byteOffsetWidth - p.channelDataWidthLog
  else 0

def colHighWidth : UInt32 := p.colAddrWidth - p.colLowWidth

/-- The low bits of the column, and the address shifted by them. -/
def takeColLow (addr : UInt64) : UInt32 × UInt64 :=
  if p.channelDataWidthLog < p.byteOffsetWidth then takeBits addr p.colLowWidth else (0, addr)

/-- The channel, of which there may be any number, and the address divided by that number. -/
def takeChannel (addr : UInt64) : UInt32 × UInt64 :=
  ((addr % p.channelCount.toUInt64).toUInt32, addr / p.channelCount.toUInt64)

def column (colHigh colLow : UInt32) : UInt32 := (colHigh <<< p.colLowWidth) ||| colLow

/-- `AddressMap` without its assertion: the channel and the place of an address. -/
def decode (addr : UInt64) : Option (UInt32 × Place) :=
  let colLow := p.takeColLow addr
  match p.interleaveType.toNat with
  | 0 =>
    let chnl := p.takeChannel colLow.2
    let rank := takeBits chnl.2 p.rankWidth
    let bank := takeBits rank.2 p.bankWidth
    let colHigh := takeBits bank.2 p.colHighWidth
    some (chnl.1, ⟨colHigh.2.toUInt32, p.column colHigh.1 colLow.1, rank.1, bank.1⟩)
  | 1 =>
    let chnl := p.takeChannel colLow.2
    let bank := takeBits chnl.2 p.bankWidth
    let rank := takeBits bank.2 p.rankWidth
    let colHigh := takeBits rank.2 p.colHighWidth
    some (chnl.1, ⟨colHigh.2.toUInt32, p.column colHigh.1 colLow.1, rank.1, bank.1⟩)
  | 2 =>
    let chnl := p.takeChannel colLow.2
    let rank := takeBits chnl.2 p.rankWidth
    let colHigh := takeBits rank.2 p.colHighWidth
    let bank := takeBits colHigh.2 p.bankWidth
    some (chnl.1, ⟨bank.2.toUInt32, p.column colHigh.1 colLow.1, rank.1, bank.1⟩)
  | 3 =>
    let chnl := p.takeChannel colLow.2
    let bank := takeBits chnl.2 p.bankWidth
    let colHigh := takeBits bank.2 p.colHighWidth
    let rank := takeBits colHigh.2 p.rankWidth
    some (chnl.1, ⟨rank.2.toUInt32, p.column colHigh.1 colLow.1, rank.1, bank.1⟩)
  | 4 =>
    let chnl := p.takeChannel colLow.2
    let colHigh := takeBits chnl.2 p.colHighWidth
    let rank := takeBits colHigh.2 p.rankWidth
    let bank := takeBits rank.2 p.bankWidth
    some (chnl.1, ⟨bank.2.toUInt32, p.column colHigh.1 colLow.1, rank.1, bank.1⟩)
  | 5 =>
    let chnl := p.takeChannel colLow.2
    let colHigh := takeBits chnl.2 p.colHighWidth
    let bank := takeBits colHigh.2 p.bankWidth
    let rank := takeBits bank.2 p.rankWidth
    some (chnl.1, ⟨rank.2.toUInt32, p.column colHigh.1 colLow.1, rank.1, bank.1⟩)
  | 6 =>
    let colHigh := takeBits colLow.2 p.colHighWidth
    let chnl := p.takeChannel colHigh.2
    let bank := takeBits chnl.2 p.bankWidth
    let rank := takeBits bank.2 p.rankWidth
    some (chnl.1, ⟨rank.2.toUInt32, p.column colHigh.1 colLow.1, rank.1, bank.1⟩)
  | 7 =>
    let colHigh := takeBits colLow.2 p.colHighWidth
    let bank := takeBits colHigh.2 p.bankWidth
    let chnl := p.takeChannel bank.2
    let rank := takeBits chnl.2 p.rankWidth
    some (chnl.1, ⟨rank.2.toUInt32, p.column colHigh.1 colLow.1, rank.1, bank.1⟩)
  | 8 =>
    let colHigh := takeBits colLow.2 p.colHighWidth
    let bank := takeBits colHigh.2 p.bankWidth
    let rank := takeBits bank.2 p.rankWidth
    let chnl := p.takeChannel rank.2
    some (chnl.1, ⟨chnl.2.toUInt32, p.column colHigh.1 colLow.1, rank.1, bank.1⟩)
  -- `chnl` is still -1, which is the id of no channel
  | _ => none

/-- `AddressMap` of the channel `myId`. -/
def addressMap (myId : UInt32) (addr : UInt64) : Option Place :=
  (p.decode addr).bind fun (chnl, place) => if myId = chnl then some place else none

def returnChannel (addr : UInt64) : Option UInt64 :=
  let addr := if p.channelDataWidthLog < p.byteOffsetWidth then addr >>> p.colLowWidth.toUInt64
    else addr
  let colHighWidth := p.colHighWidth.toUInt64
  let bankWidth := p.bankWidth.toUInt64
  let rankWidth := p.rankWidth.toUInt64
  let channelCount := p.channelCount.toUInt64
  match p.interleaveType.toNat with
  | 0 | 1 | 2 | 3 | 4 | 5 => some (addr % channelCount)
  | 6 => some ((addr >>> colHighWidth) % channelCount)
  | 7 => some ((addr >>> colHighWidth >>> bankWidth) % channelCount)
  | 8 => some ((addr >>> colHighWidth >>> bankWidth >>> rankWidth) % channelCount)
  | _ => none

/-! ### Digits of an address -/

/-- The parts of an address for each `interleaveType`, from the lowest one on. -/
def order : List Part :=
  match p.interleaveType.toNat with
  | 0 => [.colLow, .chnl, .rank, .bank, .colHigh]
  | 1 => [.colLow, .chnl, .bank, .rank, .colHigh]
  | 2 => [.colLow, .chnl, .rank, .colHigh, .bank]
  | 3 => [.colLow, .chnl, .bank, .colHigh, .rank]
  | 4 => [.colLow, .chnl, .colHigh, .rank, .bank]
  | 5 => [.colLow, .chnl, .colHigh, .bank, .rank]
  | 6 => [.colLow, .colHigh, .chnl, .bank, .rank]
  | 7 => [.colLow, .colHigh, .bank, .chnl, .rank]
  | _ => [.colLow, .colHigh, .bank, .rank, .chnl]

def radix : Part → ℕ
  | .colLow => radixOf p.colLowWidth
  | .colHigh => radixOf p.colHighWidth
  | .chnl => p.channelCount.toNat
  | .rank => radixOf p.rankWidth
  | .bank => radixOf p.bankWidth

def part (i : Part) (addr : UInt64) : ℕ := digit p.radix p.order i addr.toNat

/-- The row of an address: all that is above its other parts. -/
def fullRow (addr : UInt64) : ℕ := rest p.radix p.order addr.toNat

def fullCol (addr : UInt64) : ℕ :=
  p.part .colHigh addr * radixOf p.colLowWidth + p.part .colLow addr

/-- The row and the column of an address have at most 32 bits. -/
def Fits (addr : UInt64) : Prop := p.fullRow addr < 2 ^ 32 ∧ p.fullCol addr < 2 ^ 32

end MemParam

/-! ### Words -/

section

variable {p : MemParam} {addr a b : UInt64} {w : UInt32}

theorem ilog2_lt (val : UInt32) : (ilog2 val).toNat < 32 := by
  have hlog : val.toNat.log2 < 32 := by
    obtain h | h := Nat.eq_zero_or_pos val.toNat
    · rw [h]
      decide
    · exact (Nat.log2_lt (Nat.ne_of_gt h)).mpr val.toNat_lt
  unfold ilog2
  rw [UInt32.toNat_ofNat']
  exact Nat.lt_of_le_of_lt (Nat.mod_le _ _) hlog

theorem radixOf_pos (w : UInt32) : 0 < radixOf w := Nat.two_pow_pos _

theorem radixOf_lt (w : UInt32) : radixOf w < 2 ^ 64 :=
  Nat.pow_lt_pow_right (by decide) (Nat.mod_lt _ (by decide))

theorem toNat_mask (w : UInt32) : (((1 : UInt64) <<< w.toUInt64) - 1).toNat = radixOf w - 1 := by
  have hshift : ((1 : UInt64) <<< w.toUInt64).toNat = radixOf w := by
    rw [UInt64.toNat_shiftLeft, UInt32.toNat_toUInt64]
    show 1 <<< (w.toNat % 64) % 2 ^ 64 = _
    rw [Nat.one_shiftLeft]
    exact Nat.mod_eq_of_lt (radixOf_lt w)
  have hle : (1 : UInt64) ≤ 1 <<< w.toUInt64 := by
    rw [UInt64.le_iff_toNat_le, hshift]
    exact radixOf_pos w
  rw [UInt64.toNat_sub_of_le _ _ hle, hshift]
  rfl

/-- The bits taken, of which 32 are kept. -/
theorem takeBits_fst : (takeBits addr w).1.toNat = addr.toNat % radixOf w % 2 ^ 32 := by
  unfold takeBits
  rw [UInt64.toNat_toUInt32, UInt64.toNat_and, toNat_mask]
  unfold radixOf
  rw [Nat.and_two_pow_sub_one_eq_mod]

theorem takeBits_snd : (takeBits addr w).2.toNat = addr.toNat / radixOf w := by
  unfold takeBits
  rw [UInt64.toNat_shiftRight, UInt32.toNat_toUInt64, Nat.shiftRight_eq_div_pow]
  rfl

theorem takeChannel_fst (h : 0 < p.channelCount) :
    (p.takeChannel addr).1.toNat = addr.toNat % p.channelCount.toNat := by
  unfold MemParam.takeChannel
  rw [UInt64.toNat_toUInt32, UInt64.toNat_mod, UInt32.toNat_toUInt64]
  have hlt := Nat.mod_lt addr.toNat (UInt32.lt_iff_toNat_lt.mp h)
  exact Nat.mod_eq_of_lt (Nat.lt_trans hlt p.channelCount.toNat_lt)

theorem takeChannel_snd :
    (p.takeChannel addr).2.toNat = addr.toNat / p.channelCount.toNat := by
  unfold MemParam.takeChannel
  rw [UInt64.toNat_div, UInt32.toNat_toUInt64]

theorem colLowWidth_lt (p : MemParam) : p.colLowWidth.toNat < 32 := by
  have hoffset := ilog2_lt p.cacheLineSize
  unfold MemParam.colLowWidth
  split
  case isTrue h =>
    rw [UInt32.toNat_sub_of_le _ _ (UInt32.le_of_lt h)]
    exact Nat.lt_of_le_of_lt (Nat.sub_le _ _) hoffset
  case isFalse => decide

theorem radixOf_le (h : w.toNat < 32) : radixOf w ≤ 2 ^ 31 := by
  unfold radixOf
  exact Nat.pow_le_pow_right (by decide) (by omega)

theorem takeColLow_fst : (p.takeColLow addr).1.toNat = addr.toNat % radixOf p.colLowWidth := by
  have hlt : addr.toNat % radixOf p.colLowWidth < 2 ^ 32 := by
    have hmod := Nat.mod_lt addr.toNat (radixOf_pos p.colLowWidth)
    have hle := radixOf_le (colLowWidth_lt p)
    omega
  unfold MemParam.takeColLow
  split
  case isTrue =>
    rw [takeBits_fst]
    exact Nat.mod_eq_of_lt hlt
  case isFalse h =>
    have hzero : p.colLowWidth = 0 := if_neg h
    rw [hzero]
    exact (Nat.mod_one _).symm

theorem takeColLow_snd : (p.takeColLow addr).2.toNat = addr.toNat / radixOf p.colLowWidth := by
  unfold MemParam.takeColLow
  split
  case isTrue => exact takeBits_snd
  case isFalse h =>
    have hzero : p.colLowWidth = 0 := if_neg h
    rw [hzero]
    exact (Nat.div_one _).symm

/-- A column has 32 bits of its high part and its low part. -/
theorem toNat_column {high low : UInt32} (hlow : low.toNat < radixOf p.colLowWidth) :
    (p.column high low).toNat =
      (high.toNat * radixOf p.colLowWidth + low.toNat) % 2 ^ 32 := by
  have hwidth := colLowWidth_lt p
  unfold MemParam.column
  unfold radixOf at hlow ⊢
  rw [UInt32.toNat_or, UInt32.toNat_shiftLeft]
  generalize p.colLowWidth.toNat = k at hwidth hlow ⊢
  rw [Nat.mod_eq_of_lt (show k < 64 by omega)] at hlow ⊢
  rw [Nat.mod_eq_of_lt hwidth, Nat.shiftLeft_eq]
  have hsplit : 2 ^ 32 = 2 ^ (32 - k) * 2 ^ k := by
    rw [← Nat.pow_add, Nat.sub_add_cancel (Nat.le_of_lt hwidth)]
  rw [hsplit, Nat.mul_mod_mul_right, ← Nat.shiftLeft_eq,
    ← Nat.shiftLeft_add_eq_or_of_lt hlow, Nat.shiftLeft_eq]
  have hm := Nat.mod_lt high.toNat (Nat.two_pow_pos (32 - k))
  generalize 2 ^ (32 - k) = r at hm ⊢
  have hlt : high.toNat % r * 2 ^ k + low.toNat < r * 2 ^ k := by
    calc high.toNat % r * 2 ^ k + low.toNat < high.toNat % r * 2 ^ k + 2 ^ k := by omega
      _ = (high.toNat % r + 1) * 2 ^ k := (Nat.succ_mul _ _).symm
      _ ≤ r * 2 ^ k := Nat.mul_le_mul_right _ hm
  have hsum : high.toNat * 2 ^ k + low.toNat =
      r * 2 ^ k * (high.toNat / r) + (high.toNat % r * 2 ^ k + low.toNat) := by
    calc high.toNat * 2 ^ k + low.toNat
      _ = (r * (high.toNat / r) + high.toNat % r) * 2 ^ k + low.toNat := by rw [Nat.div_add_mod]
      _ = _ := by rw [Nat.add_mul, Nat.add_assoc, Nat.mul_right_comm]
  rw [hsum, Nat.mul_add_mod, Nat.mod_eq_of_lt hlt]

/-- The column of the bits that are taken at one place and the low ones. -/
theorem toNat_column_takeBits (rest : UInt64) :
    (p.column (takeBits rest w).1 (p.takeColLow addr).1).toNat =
      (rest.toNat % radixOf w * radixOf p.colLowWidth + addr.toNat % radixOf p.colLowWidth) %
        2 ^ 32 := by
  have hlow := Nat.mod_lt addr.toNat (radixOf_pos p.colLowWidth)
  rw [← takeColLow_fst] at hlow
  rw [toNat_column hlow, takeBits_fst, takeColLow_fst, Nat.add_mod, Nat.mod_mul_mod,
    ← Nat.add_mod]

/-! ### What the decoders return -/

/-- The pieces of a place are the digits of the address, of which 32 bits are kept. -/
structure Decodes (p : MemParam) (addr : UInt64) (chnl : UInt32) (place : Place) : Prop where
  chnl : chnl.toNat = p.part .chnl addr
  rank : place.rank.toNat = p.part .rank addr
  bank : place.bank.toNat = p.part .bank addr
  col : place.col.toNat = p.fullCol addr % 2 ^ 32
  row : place.row.toNat = p.fullRow addr % 2 ^ 32

theorem type_cases (htype : p.interleaveType.toNat ≤ 8) :
    p.interleaveType.toNat = 0 ∨ p.interleaveType.toNat = 1 ∨ p.interleaveType.toNat = 2 ∨
      p.interleaveType.toNat = 3 ∨ p.interleaveType.toNat = 4 ∨ p.interleaveType.toNat = 5 ∨
      p.interleaveType.toNat = 6 ∨ p.interleaveType.toNat = 7 ∨ p.interleaveType.toNat = 8 := by
  omega

theorem decode_spec (htype : p.interleaveType.toNat ≤ 8) (hchannels : 0 < p.channelCount)
    (addr : UInt64) : ∃ chnl place, p.decode addr = some (chnl, place) ∧
      Decodes p addr chnl place := by
  have hbits : ∀ v n, n % radixOf (ilog2 v) < 4294967296 := by
    intro v n
    have hlt := Nat.mod_lt n (radixOf_pos (ilog2 v))
    have hle := radixOf_le (ilog2_lt v)
    omega
  obtain h | h | h | h | h | h | h | h | h := type_cases htype
  all_goals
    unfold MemParam.decode
    dsimp only
    rw [h]
    refine ⟨_, _, rfl, ?_⟩
    constructor <;>
      simp [MemParam.part, MemParam.fullCol, MemParam.fullRow, MemParam.order, h, digit, rest,
        MemParam.radix, takeBits_fst, takeBits_snd, takeChannel_fst hchannels, takeChannel_snd,
        takeColLow_snd, toNat_column_takeBits, MemParam.rankWidth, MemParam.bankWidth, hbits]

/-- `ReturnChannel` is the channel that `AddressMap` finds. -/
theorem returnChannel_eq (htype : p.interleaveType.toNat ≤ 8)
    (addr : UInt64) : ∃ c, p.returnChannel addr = some c ∧ c.toNat = p.part .chnl addr := by
  have hlow : (if p.channelDataWidthLog < p.byteOffsetWidth then
      addr >>> p.colLowWidth.toUInt64 else addr) = (p.takeColLow addr).2 := by
    unfold MemParam.takeColLow
    split <;> rfl
  unfold MemParam.returnChannel
  dsimp only
  rw [hlow]
  obtain h | h | h | h | h | h | h | h | h := type_cases htype
  all_goals
    rw [h]
    refine ⟨_, rfl, ?_⟩
    simp [MemParam.part, MemParam.order, h, digit, MemParam.radix, takeColLow_snd, radixOf,
      Nat.shiftRight_eq_div_pow]

theorem nodup_order (p : MemParam) : p.order.Nodup := by
  unfold MemParam.order
  split <;> decide

theorem mem_order (p : MemParam) (i : Part) : i ∈ p.order := by
  unfold MemParam.order
  split <;> cases i <;> decide

/-! ### Addresses that are told apart -/

/-- The channel and the place of an address. -/
def MemParam.locate (p : MemParam) (addr : UInt64) : Option (UInt32 × Place) :=
  (p.returnChannel addr).bind fun c =>
    (p.addressMap c.toUInt32 addr).map fun place => (c.toUInt32, place)

theorem part_chnl_lt (hchannels : 0 < p.channelCount) (addr : UInt64) :
    p.part .chnl addr < p.channelCount.toNat := by
  have hpos : 0 < p.channelCount.toNat := UInt32.lt_iff_toNat_lt.mp hchannels
  have hlt : ∀ l : List Part, .chnl ∈ l → ∀ n,
      digit p.radix l .chnl n < p.channelCount.toNat := by
    intro l hl
    induction l with
    | nil => exact absurd hl List.not_mem_nil
    | cons j js ih =>
      intro n
      unfold digit
      split
      case isTrue h => exact h ▸ Nat.mod_lt n hpos
      case isFalse h => exact ih ((List.mem_cons.mp hl).resolve_left h) _
  exact hlt _ (mem_order p .chnl) _

/-- The channel that `ReturnChannel` picks is the one that accepts the address. -/
theorem accepts_iff (htype : p.interleaveType.toNat ≤ 8) (hchannels : 0 < p.channelCount)
    (addr : UInt64) : ∃ c place, p.returnChannel addr = some c ∧
      c.toNat < p.channelCount.toNat ∧ p.addressMap c.toUInt32 addr = some place ∧
      Decodes p addr c.toUInt32 place ∧
      ∀ myId, (p.addressMap myId addr).isSome ↔ myId.toUInt64 = c := by
  obtain ⟨c, hc, heq⟩ := returnChannel_eq htype addr
  obtain ⟨chnl, place, hdecode, hplace⟩ := decode_spec htype hchannels addr
  have hlt : c.toNat < p.channelCount.toNat := heq ▸ part_chnl_lt hchannels addr
  have hsmall : c.toNat < 2 ^ 32 := Nat.lt_trans hlt p.channelCount.toNat_lt
  have hchnl : c.toUInt32 = chnl := by
    apply UInt32.toNat_inj.mp
    rw [UInt64.toNat_toUInt32, Nat.mod_eq_of_lt hsmall, heq, hplace.chnl]
  refine ⟨c, place, hc, hlt, ?_, hchnl ▸ hplace, fun myId => ?_⟩
  · unfold MemParam.addressMap
    rw [hdecode]
    exact if_pos hchnl
  · unfold MemParam.addressMap
    rw [hdecode, Option.bind_some]
    dsimp only
    have hiff : myId = chnl ↔ myId.toUInt64 = c := by
      rw [← UInt64.toNat_inj, UInt32.toNat_toUInt64, heq, ← hplace.chnl, UInt32.toNat_inj]
    rw [← hiff]
    split
    case isTrue h => exact iff_of_true rfl h
    case isFalse h => exact iff_of_false Bool.false_ne_true h

theorem locate_spec (htype : p.interleaveType.toNat ≤ 8) (hchannels : 0 < p.channelCount)
    (addr : UInt64) : ∃ chnl place, p.locate addr = some (chnl, place) ∧
      Decodes p addr chnl place := by
  obtain ⟨c, place, hc, -, hplace, hdecodes, -⟩ := accepts_iff htype hchannels addr
  refine ⟨c.toUInt32, place, ?_, hdecodes⟩
  unfold MemParam.locate
  rw [hc, Option.bind_some, hplace]
  rfl

/-- Two addresses are at the same place when their parts are the same but for what 32 bits of a row
and a column do not hold. -/
theorem locate_eq_iff (htype : p.interleaveType.toNat ≤ 8) (hchannels : 0 < p.channelCount) :
    p.locate a = p.locate b ↔ p.part .chnl a = p.part .chnl b ∧
      p.part .rank a = p.part .rank b ∧ p.part .bank a = p.part .bank b ∧
      p.fullCol a % 2 ^ 32 = p.fullCol b % 2 ^ 32 ∧
      p.fullRow a % 2 ^ 32 = p.fullRow b % 2 ^ 32 := by
  obtain ⟨ca, pa, ha, hda⟩ := locate_spec htype hchannels a
  obtain ⟨cb, pb, hb, hdb⟩ := locate_spec htype hchannels b
  rw [ha, hb, ← hda.chnl, ← hdb.chnl, ← hda.rank, ← hdb.rank, ← hda.bank, ← hdb.bank, ← hda.col,
    ← hdb.col, ← hda.row, ← hdb.row]
  simp only [UInt32.toNat_inj]
  constructor
  case mp =>
    intro h
    obtain ⟨rfl, rfl⟩ := Prod.mk.inj (Option.some.inj h)
    exact ⟨rfl, rfl, rfl, rfl, rfl⟩
  case mpr =>
    rintro ⟨hchnl, hrank, hbank, hcol, hrow⟩
    obtain ⟨row, col, rank, bank⟩ := pa
    obtain ⟨row', col', rank', bank'⟩ := pb
    dsimp only at hrank hbank hcol hrow
    rw [hchnl, hrank, hbank, hcol, hrow]

theorem fullCol_parts (a : UInt64) : p.part .colLow a = p.fullCol a % radixOf p.colLowWidth ∧
    p.part .colHigh a = p.fullCol a / radixOf p.colLowWidth := by
  have hlt : p.part .colLow a < radixOf p.colLowWidth := by
    have horder : ∃ l, p.order = .colLow :: l := by
      unfold MemParam.order
      split <;> exact ⟨_, rfl⟩
    obtain ⟨l, hl⟩ := horder
    unfold MemParam.part
    rw [hl, digit, if_pos rfl]
    exact Nat.mod_lt _ (radixOf_pos _)
  unfold MemParam.fullCol
  rw [Nat.mul_comm, Nat.mul_add_mod, Nat.mul_add_div (radixOf_pos _), Nat.mod_eq_of_lt hlt,
    Nat.div_eq_of_lt hlt, Nat.add_zero]
  exact ⟨rfl, rfl⟩

/-- Addresses whose rows and columns fit are told apart. -/
theorem eq_of_locate_eq (htype : p.interleaveType.toNat ≤ 8) (hchannels : 0 < p.channelCount)
    (ha : p.Fits a) (hb : p.Fits b) (h : p.locate a = p.locate b) : a = b := by
  obtain ⟨hchnl, hrank, hbank, hcol, hrow⟩ := (locate_eq_iff htype hchannels).mp h
  rw [Nat.mod_eq_of_lt ha.1, Nat.mod_eq_of_lt hb.1] at hrow
  rw [Nat.mod_eq_of_lt ha.2, Nat.mod_eq_of_lt hb.2] at hcol
  apply UInt64.toNat_inj.mp
  refine eq_of_digits (nodup_order p) (fun i _ => ?_) hrow
  change p.part i a = p.part i b
  cases i with
  | chnl => exact hchnl
  | rank => exact hrank
  | bank => exact hbank
  | colLow => rw [(fullCol_parts a).1, (fullCol_parts b).1, hcol]
  | colHigh => rw [(fullCol_parts a).2, (fullCol_parts b).2, hcol]

theorem toNat_ofNat {n : ℕ} (h : n ≤ a.toNat) : (UInt64.ofNat n).toNat = n := by
  rw [UInt64.toNat_ofNat']
  exact Nat.mod_eq_of_lt (Nat.lt_of_le_of_lt h a.toNat_lt)

/-- A column that does not fit is taken for a lower one. -/
theorem exists_lower_col (hcol : 2 ^ 32 ≤ p.fullCol a) :
    ∃ b, p.fullCol b + 2 ^ 32 = p.fullCol a ∧ (∀ i, i ≠ .colHigh → p.part i b = p.part i a) ∧
      p.fullRow b = p.fullRow a := by
  have hlow := colLowWidth_lt p
  have hR : radixOf p.colLowWidth = 2 ^ p.colLowWidth.toNat := by
    unfold radixOf
    rw [Nat.mod_eq_of_lt (by omega)]
  have hsplit : 2 ^ 32 = 2 ^ (32 - p.colLowWidth.toNat) * radixOf p.colLowWidth := by
    rw [hR, ← Nat.pow_add, Nat.sub_add_cancel (Nat.le_of_lt hlow)]
  have hhigh : 2 ^ (32 - p.colLowWidth.toNat) ≤ p.part .colHigh a := by
    rw [(fullCol_parts a).2, Nat.le_div_iff_mul_le (radixOf_pos _), ← hsplit]
    exact hcol
  obtain ⟨n, hn, hdigit, hrest, hothers⟩ :=
    lower_digit (mem_order p .colHigh) (Nat.sub_le (p.part .colHigh a)
      (2 ^ (32 - p.colLowWidth.toNat)))
  have hb : (UInt64.ofNat n).toNat = n := toNat_ofNat hn
  have hparts : ∀ i, i ≠ .colHigh → p.part i (UInt64.ofNat n) = p.part i a := by
    intro i hi
    unfold MemParam.part
    rw [hb]
    exact hothers i hi
  have hnew : p.part .colHigh (UInt64.ofNat n) =
      p.part .colHigh a - 2 ^ (32 - p.colLowWidth.toNat) := by
    unfold MemParam.part
    rw [hb]
    exact hdigit
  refine ⟨UInt64.ofNat n, ?_, hparts, ?_⟩
  · unfold MemParam.fullCol
    rw [hnew, hparts .colLow (by decide), Nat.sub_mul, ← hsplit]
    have := Nat.mul_le_mul_right (radixOf p.colLowWidth) hhigh
    omega
  · unfold MemParam.fullRow
    rw [hb, hrest]

/-- A row that does not fit is taken for a lower one. -/
theorem exists_lower_row (hrow : 2 ^ 32 ≤ p.fullRow a) :
    ∃ b, p.fullRow b + 2 ^ 32 = p.fullRow a ∧ ∀ i, p.part i b = p.part i a := by
  obtain ⟨n, hn, hrest, hdigits⟩ := lower_rest (Nat.sub_le (p.fullRow a) (2 ^ 32))
  have hb : (UInt64.ofNat n).toNat = n := toNat_ofNat hn
  refine ⟨UInt64.ofNat n, ?_, fun i => ?_⟩
  · unfold MemParam.fullRow at hrest hrow ⊢
    rw [hb, hrest]
    omega
  · unfold MemParam.part
    rw [hb]
    exact hdigits i

theorem exists_locate_eq (htype : p.interleaveType.toNat ≤ 8) (hchannels : 0 < p.channelCount)
    (ha : ¬p.Fits a) : ∃ b, b ≠ a ∧ p.locate b = p.locate a := by
  by_cases hrow : p.fullRow a < 2 ^ 32
  case pos =>
    have hcol : 2 ^ 32 ≤ p.fullCol a := Nat.not_lt.mp fun h => ha ⟨hrow, h⟩
    obtain ⟨b, hlower, hparts, hsame⟩ := exists_lower_col hcol
    refine ⟨b, fun heq => ?_, (locate_eq_iff htype hchannels).mpr
      ⟨hparts .chnl (by decide), hparts .rank (by decide), hparts .bank (by decide), ?_, ?_⟩⟩
    · rw [heq] at hlower
      omega
    · rw [← hlower, Nat.add_mod_right]
    · rw [hsame]
  case neg =>
    obtain ⟨b, hlower, hparts⟩ := exists_lower_row (Nat.not_lt.mp hrow)
    refine ⟨b, fun heq => ?_, (locate_eq_iff htype hchannels).mpr
      ⟨hparts .chnl, hparts .rank, hparts .bank, ?_, ?_⟩⟩
    · rw [heq] at hlower
      omega
    · unfold MemParam.fullCol
      rw [hparts, hparts]
    · rw [← hlower, Nat.add_mod_right]

end

/-- The channel that `ReturnChannel` selects is the only one that accepts an address.  Two addresses
whose rows and columns have at most 32 bits are told apart; and all addresses are if and only if
all have such rows and columns. -/
theorem addresses_located_iff (p : MemParam) (htype : p.interleaveType.toNat ≤ 8)
    (hchannels : 0 < p.channelCount) :
    (∀ addr, ∃ c place, p.returnChannel addr = some c ∧
      p.addressMap c.toUInt32 addr = some place ∧
      ∀ myId, (p.addressMap myId addr).isSome ↔ myId.toUInt64 = c) ∧
    (∀ a b, p.Fits a → p.Fits b → p.locate a = p.locate b → a = b) ∧
    ((∀ a b, p.locate a = p.locate b → a = b) ↔ ∀ addr, p.Fits addr) := by
  refine ⟨fun addr => ?_, fun a b ha hb => eq_of_locate_eq htype hchannels ha hb, ?_, ?_⟩
  · obtain ⟨c, place, hc, -, hplace, -, hiff⟩ := accepts_iff htype hchannels addr
    exact ⟨c, place, hc, hplace, hiff⟩
  · intro hinj addr
    by_contra hfits
    obtain ⟨b, hne, heq⟩ := exists_locate_eq htype hchannels hfits
    exact hne (hinj b addr heq)
  · exact fun hfits a b => eq_of_locate_eq htype hchannels (hfits a) (hfits b)

def threeChannels : MemParam := { MemParam.defaults with channelCount := 3 }

theorem addresses_located_example : threeChannels.returnChannel 1000 = some 1 ∧
    ∀ a b, threeChannels.Fits a → threeChannels.Fits b →
      threeChannels.locate a = threeChannels.locate b → a = b :=
  ⟨by decide, (addresses_located_iff threeChannels (by decide) (by decide)).2.1⟩

/-- The first lines of two processes are at the same place. -/
theorem addresses_not_located : ¬ ∀ p : MemParam, p.interleaveType.toNat ≤ 8 →
    0 < p.channelCount →
    (∀ addr, ∃ c place, p.returnChannel addr = some c ∧
      p.addressMap c.toUInt32 addr = some place ∧
      ∀ myId, (p.addressMap myId addr).isSome ↔ myId.toUInt64 = c) ∧
    ∀ a b, p.locate a = p.locate b → a = b := by
  intro h
  have hsame : MemParam.defaults.locate 0 = MemParam.defaults.locate 0x400000000000000 := by
    decide +kernel
  have heq := (h MemParam.defaults (by decide) (by decide)).2 _ _ hsame
  exact absurd heq (by decide)

end Doppelganger.Detailed
