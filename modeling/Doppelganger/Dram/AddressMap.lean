import Doppelganger.Dram.Service
import Doppelganger.Lib.Radix
import Mathlib.Data.List.Nodup
import Mathlib.Data.Nat.Bitwise

/-! The address mapping of `DDRMemory`.  For every order of the fields, the shifts and masks that
the constructor computes cut a line address into its digits: the fields, and the row above them. -/

namespace Doppelganger.Dram

open Lib Radix

/-- The radix of a field. -/
def radixOf (bits : Field → Nat) (f : Field) : Nat := 2 ^ bits f

namespace AddrMap

def shiftOf (m : AddrMap) : Field → Nat
  | .col => m.colShift
  | .rank => m.rankShift
  | .bank => m.bankShift

def maskOf (m : AddrMap) : Field → Nat
  | .col => m.colMask
  | .rank => m.rankMask
  | .bank => m.bankMask

/-- A field of an address. -/
def fieldOf (m : AddrMap) (f : Field) (a : Nat) : Nat := (a >>> m.shiftOf f) &&& m.maskOf f

/-- The fields are the digits of an address, and the row is what is left. -/
structure Cuts (m : AddrMap) (bits : Field → Nat) (order : List Field) : Prop where
  mask : ∀ f, m.maskOf f = 2 ^ bits f - 1
  field : ∀ f a, m.fieldOf f a = digit (radixOf bits) order f a
  row : ∀ a, a >>> m.rowShift = rest (radixOf bits) order a
  apart : ∀ f, m.shiftOf f + bits f ≤ m.rowShift
  disjoint : ∀ f g, f ≠ g → m.shiftOf f + bits f ≤ m.shiftOf g ∨ m.shiftOf g + bits g ≤ m.shiftOf f

theorem perm_cases {tokens : List Field} (h : tokens.Perm [.col, .rank, .bank]) :
    tokens = [.col, .rank, .bank] ∨ tokens = [.col, .bank, .rank] ∨
    tokens = [.rank, .col, .bank] ∨ tokens = [.rank, .bank, .col] ∨
    tokens = [.bank, .col, .rank] ∨ tokens = [.bank, .rank, .col] := by
  obtain ⟨x, y, z, rfl⟩ := List.length_eq_three.mp h.length_eq
  revert h
  cases x <;> cases y <;> cases z <;> decide

/-- The constructor accepts every order of the three fields. -/
theorem new_cuts (bits : Field → Nat) {tokens : List Field}
    (h : tokens.Perm [.col, .rank, .bank]) :
    ∃ m, AddrMap.new bits tokens = some m ∧ m.Cuts bits tokens.reverse := by
  obtain rfl | rfl | rfl | rfl | rfl | rfl := perm_cases h
  all_goals
    refine ⟨_, rfl, ?_, ?_, ?_, ?_, ?_⟩
    · intro f
      cases f <;> rfl
    · intro f a
      cases f <;>
        simp [fieldOf, shiftOf, maskOf, digit, radixOf, Nat.shiftRight_eq_div_pow, Nat.pow_add,
          Nat.div_div_eq_div_mul, Nat.and_two_pow_sub_one_eq_mod]
    · intro a
      simp [rest, radixOf, Nat.shiftRight_eq_div_pow, Nat.pow_add, Nat.div_div_eq_div_mul]
    · intro f
      cases f <;> (dsimp only [shiftOf]; omega)
    · intro f g hne
      cases f <;> cases g <;> simp [shiftOf] at hne ⊢

variable {m : AddrMap} {bits : Field → Nat} {order : List Field}

theorem Cuts.lt (h : m.Cuts bits order) (f : Field) (a : Nat) : m.fieldOf f a < 2 ^ bits f := by
  have hle : m.fieldOf f a ≤ m.maskOf f := Nat.and_le_right
  have hpos := Nat.two_pow_pos (bits f)
  rw [h.mask] at hle
  omega

/-- Bits of an address that are equal give an equal field. -/
theorem fieldOf_congr {f : Field} {w a b : Nat} (hmask : m.maskOf f = 2 ^ w - 1)
    (h : ∀ i, m.shiftOf f ≤ i → i < m.shiftOf f + w → a.testBit i = b.testBit i) :
    m.fieldOf f a = m.fieldOf f b := by
  unfold fieldOf
  rw [hmask]
  apply Nat.eq_of_testBit_eq
  intro i
  rw [Nat.testBit_and, Nat.testBit_and, Nat.testBit_two_pow_sub_one, Nat.testBit_shiftRight,
    Nat.testBit_shiftRight]
  by_cases hi : i < w
  · rw [h _ (Nat.le_add_right _ _) (by omega)]
  · simp [hi]

theorem shiftRight_congr {s a b : Nat} (h : ∀ i, s ≤ i → a.testBit i = b.testBit i) :
    a >>> s = b >>> s := by
  apply Nat.eq_of_testBit_eq
  intro i
  rw [Nat.testBit_shiftRight, Nat.testBit_shiftRight, h _ (Nat.le_add_right _ _)]

end AddrMap

/-! ### The mapping -/

section

variable {cfg : Config} {bits : Field → Nat} {order : List Field} {a b : UInt64}
  {loc loc' : AddrLoc}

theorem mapLineAddr_eq (h : cfg.mapLineAddr a = some loc) :
    loc = ⟨a.toNat >>> cfg.addrMap.rowShift, cfg.addrMap.fieldOf .bank a.toNat,
      cfg.addrMap.fieldOf .rank a.toNat, cfg.addrMap.fieldOf .col a.toNat⟩ := by
  unfold Config.mapLineAddr at h
  dsimp only at h
  obtain ⟨-, h⟩ := Option.ite_none_right_eq_some.mp h
  exact (Option.some.inj h).symm

/-- No assertion fails when there are as many ranks and banks as their fields have values. -/
theorem mapLineAddr_isSome (h : cfg.addrMap.Cuts bits order)
    (hrank : 2 ^ bits .rank ≤ cfg.ranksPerChannel) (hbank : 2 ^ bits .bank ≤ cfg.banksPerRank)
    (a : UInt64) : ∃ loc, cfg.mapLineAddr a = some loc ∧ loc.rank < cfg.ranksPerChannel ∧
      loc.bank < cfg.banksPerRank := by
  have hin : cfg.addrMap.fieldOf .rank a.toNat < cfg.ranksPerChannel ∧
      cfg.addrMap.fieldOf .bank a.toNat < cfg.banksPerRank :=
    ⟨(h.lt .rank _).trans_le hrank, (h.lt .bank _).trans_le hbank⟩
  exact ⟨_, if_pos hin, hin⟩

theorem mapLineAddr_inj (h : cfg.addrMap.Cuts bits order) (hnodup : order.Nodup)
    (ha : cfg.mapLineAddr a = some loc) (hb : cfg.mapLineAddr b = some loc) : a = b := by
  have heq := (mapLineAddr_eq ha).symm.trans (mapLineAddr_eq hb)
  injection heq with hrow hbank hrank hcol
  apply UInt64.toNat_inj.mp
  apply eq_of_digits hnodup
  · intro f _
    rw [← h.field, ← h.field]
    cases f with
    | col => exact hcol
    | rank => exact hrank
    | bank => exact hbank
  · rw [← h.row, ← h.row]
    exact hrow

/-- Lines that differ in the column only are in the same row of a bank. -/
theorem mapLineAddr_row (h : cfg.addrMap.Cuts bits order)
    (hbits : ∀ i, i < cfg.addrMap.colShift ∨ cfg.addrMap.colShift + bits .col ≤ i →
      a.toNat.testBit i = b.toNat.testBit i)
    (ha : cfg.mapLineAddr a = some loc) (hb : cfg.mapLineAddr b = some loc') :
    loc.row = loc'.row ∧ loc.bank = loc'.bank ∧ loc.rank = loc'.rank := by
  have hother : ∀ f, f ≠ .col →
      cfg.addrMap.fieldOf f a.toNat = cfg.addrMap.fieldOf f b.toNat := by
    intro f hf
    have hapart : cfg.addrMap.shiftOf f + bits f ≤ cfg.addrMap.colShift ∨
      cfg.addrMap.colShift + bits .col ≤ cfg.addrMap.shiftOf f := h.disjoint f .col hf
    exact AddrMap.fieldOf_congr (h.mask f) fun i hlow hhigh => hbits i (by omega)
  have hcol : cfg.addrMap.colShift + bits .col ≤ cfg.addrMap.rowShift := h.apart .col
  rw [mapLineAddr_eq ha, mapLineAddr_eq hb]
  exact ⟨AddrMap.shiftRight_congr fun i hi => hbits i (.inr (hcol.trans hi)),
    hother .bank (by decide), hother .rank (by decide)⟩

end

theorem two_pow_log2_le {n : UInt32} (hn : 0 < n) : 2 ^ n.toNat.log2 ≤ n.toNat :=
  Nat.log2_self_le (Nat.ne_of_gt (UInt32.lt_iff_toNat_lt.mp hn))

/-- For every order of the fields and all numbers of columns, ranks and banks, the mapping succeeds,
no two lines have the same place, and lines that differ in the bits of the column only are in the
same row of the same bank. -/
theorem mapLineAddr_tiles {args : Args} (htokens : args.addrMapping.Perm [.col, .rank, .bank])
    (hranks : 0 < args.ranksPerChannel) (hbanks : 0 < args.banksPerRank) :
    ∃ m, AddrMap.new args.fieldBits args.addrMapping = some m ∧
      ∀ cfg, args.config = some cfg → cfg.addrMap = m ∧
        (∀ a, ∃ loc, cfg.mapLineAddr a = some loc ∧ loc.rank < args.ranksPerChannel.toNat ∧
          loc.bank < args.banksPerRank.toNat) ∧
        (∀ a b loc, cfg.mapLineAddr a = some loc → cfg.mapLineAddr b = some loc → a = b) ∧
        ∀ a b : UInt64, (∀ i, i < m.colShift ∨ m.colShift + args.fieldBits .col ≤ i →
            a.toNat.testBit i = b.toNat.testBit i) →
          ∀ loc loc', cfg.mapLineAddr a = some loc → cfg.mapLineAddr b = some loc' →
            loc.row = loc'.row ∧ loc.bank = loc'.bank ∧ loc.rank = loc'.rank := by
  obtain ⟨m, hm, hcuts⟩ := AddrMap.new_cuts args.fieldBits htokens
  refine ⟨m, hm, fun cfg hcfg => ?_⟩
  obtain ⟨timing, -, hcfg⟩ := Option.bind_eq_some_iff.mp hcfg
  obtain ⟨-, hcfg⟩ := Option.ite_none_left_eq_some.mp hcfg
  obtain ⟨m', hm', rfl⟩ := Option.map_eq_some_iff.mp hcfg
  obtain rfl := Option.some.inj (hm'.symm.trans hm)
  have hnodup : args.addrMapping.reverse.Nodup :=
    List.nodup_reverse.mpr (htokens.nodup_iff.mpr (by decide))
  refine ⟨rfl, ?_, ?_, ?_⟩
  · exact mapLineAddr_isSome hcuts (two_pow_log2_le hranks) (two_pow_log2_le hbanks)
  · exact fun a b loc => mapLineAddr_inj hcuts hnodup
  · exact fun a b hbits loc loc' => mapLineAddr_row hcuts hbits

theorem mapLineAddr_tiles_example : ∃ cfg, (exampleArgs 16).config = some cfg ∧
    ∀ a b loc, cfg.mapLineAddr a = some loc → cfg.mapLineAddr b = some loc → a = b := by
  obtain ⟨m, -, h⟩ := @mapLineAddr_tiles (exampleArgs 16) (by decide) (by decide) (by decide)
  exact ⟨_, rfl, (h _ rfl).2.2.1⟩

end Doppelganger.Dram
