import Mathlib

/-! Numbers of Lean's binary64 model: the signs of results, and the whole numbers below `2^53`,
which a `Float` represents exactly. -/

namespace Doppelganger.Lib

open Float.Model Float.Model.UnpackedFloat

/-- A number of positive sign. -/
def Unsigned : UnpackedFloat → Prop
  | .infinity .positive | .zero .positive | .finite .positive _ _ _ => True
  | _ => False

/-! ### Packing -/

theorem sign_packComponents {spec : Format} {sign : Sign} {exponent : BitVec spec.exponentBits}
    {mantissa : BitVec spec.mantissaBitsWithoutImplicit} :
    Sign.ofBitVec (unpackSign (packComponents spec sign exponent mantissa)) = sign := by
  have hsign : unpackSign (packComponents spec sign exponent mantissa) = sign.toBitVec := by
    apply BitVec.eq_of_getLsbD_eq
    intro i hi
    obtain rfl : i = 0 := by omega
    simp [unpackSign, packComponents, BitVec.getLsbD_append, BitVec.getElem_append]
  rw [hsign]
  cases sign <;> rfl

/-- Packed components of positive sign are no negative number, and a number unless they are the
components of one that is none. -/
theorem unsigned_packComponents {exponent : BitVec 11} {mantissa : BitVec 52}
    (h : exponent = -1#11 → mantissa = 0#52) :
    Unsigned (UnpackedFloat.unpack .binary64
      (packComponents .binary64 .positive exponent mantissa)) := by
  unfold UnpackedFloat.unpack
  simp only [unpackExponent_packComponents, unpackMantissa_packComponents, sign_packComponents]
  split
  · rename_i hexponent
    rw [if_pos (h hexponent)]
    trivial
  · split
    · split <;> trivial
    · trivial

theorem unsigned_pack {f : UnpackedFloat} (h : Unsigned f) :
    Unsigned (UnpackedFloat.unpack .binary64 (UnpackedFloat.pack .binary64 f)) := by
  match f, h with
  | .infinity .positive, _ => exact unsigned_packComponents fun _ => rfl
  | .zero .positive, _ => exact unsigned_packComponents fun _ => rfl
  | .finite .positive m e _, _ =>
    unfold UnpackedFloat.pack
    simp only
    split
    · exact unsigned_packComponents fun _ => rfl
    · rename_i hexponent
      split
      · apply unsigned_packComponents
        intro hnan
        have hnat := congrArg BitVec.toNat hnan
        rw [BitVec.toNat_ofNat, Nat.mod_eq_of_lt (by omega)] at hnat
        simp at hnat hexponent
        omega
      · apply unsigned_packComponents
        intro hnan
        exact absurd hnan (by decide)

theorem unsigned_roundWithAccuracy (m : Nat) (e : Int) (acc : Accuracy) :
    Unsigned (roundWithAccuracy .binary64 .positive m e acc) := by
  unfold roundWithAccuracy
  simp only
  split <;> trivial

/-! ### Whole numbers -/

theorem log2_shiftLeft {n : Nat} (hpos : 0 < n) (k : Nat) : (n <<< k).log2 = n.log2 + k := by
  have hbounds := (Nat.log2_eq_iff hpos.ne').mp rfl
  have hk : 0 < 2 ^ k := Nat.two_pow_pos k
  rw [Nat.shiftLeft_eq, Nat.log2_eq_iff (Nat.mul_pos hpos hk).ne', Nat.pow_add,
    Nat.add_right_comm, Nat.pow_add]
  exact ⟨Nat.mul_le_mul_right _ hbounds.1, Nat.mul_lt_mul_of_pos_right hbounds.2 hk⟩

theorem repeat_shiftRightOne (m k : Nat) :
    k.repeat ExtendedMantissa.shiftRightOne ⟨m <<< k, false, false⟩ = ⟨m, false, false⟩ := by
  induction k generalizing m with
  | zero => rfl
  | succ k ih =>
    have hsucc : m <<< (k + 1) = (m <<< 1) <<< k := by
      rw [← Nat.shiftLeft_add, Nat.add_comm]
    rw [Nat.repeat, hsucc, ih (m <<< 1)]
    simp [ExtendedMantissa.shiftRightOne, Nat.shiftLeft_eq]

/-- Rounding keeps a number whose mantissa has 53 bits, whatever zeros follow them. -/
theorem roundWithAccuracy_canonical {m : Nat} {e : Int} (k : Nat) (hm : m.log2 = 52)
    (he : -1074 ≤ e) (hpos : 0 < m) :
    roundWithAccuracy .binary64 .positive (m <<< k) (e - k) .exact =
      .finite .positive m e hpos := by
  have hshift (k : Nat) : shiftToTargetExponent .binary64 (m <<< k) (e - k) .exact =
      (⟨m, false, false⟩, e) := by
    have htarget : Format.targetExponent .binary64 (totalExponent (m <<< k) (e - k)) = e := by
      simp [Format.targetExponent, totalExponent, log2_shiftLeft hpos, hm, Format.mantissaBits,
        Format.minExponent]
      omega
    have hamount : (e - (e - k)).toNat = k := by omega
    simp only [shiftToTargetExponent, shiftToExponent, htarget, hamount,
      ExtendedMantissa.ofMantissaAndAccuracy, HShiftRight.hShiftRight, Prod.mk.injEq]
    exact ⟨repeat_shiftRightOne m k, by omega⟩
  have hround := hshift 0
  rw [Nat.shiftLeft_zero, Int.natCast_zero, Int.sub_zero] at hround
  simp only [roundWithAccuracy, hshift, hround, ExtendedMantissa.roundedMantissa,
    ExtendedMantissa.accuracy, Accuracy.roundToNearestEven]
  rw [dif_neg (by omega)]

/-- A canonical number is unpacked as it was packed. -/
theorem unpack_pack_canonical {m : Nat} {e : Int} (hm : m.log2 = 52) (hlo : -1074 ≤ e)
    (hhi : e ≤ 971) (hpos : 0 < m) :
    UnpackedFloat.unpack .binary64 (UnpackedFloat.pack .binary64 (.finite .positive m e hpos)) =
      .finite .positive m e hpos := by
  have hbounds := (Nat.log2_eq_iff hpos.ne').mp hm
  have hmant : (1#1 ++ BitVec.ofNat 52 m).toNat = m := by
    rw [BitVec.toNat_append, ← Nat.shiftLeft_add_eq_or_of_lt (BitVec.isLt _), Nat.shiftLeft_eq]
    simp only [BitVec.toNat_ofNat]
    omega
  obtain ⟨b, hb⟩ : ∃ b : Nat, (b : Int) = e + 1075 := ⟨(e + 1075).toNat, by omega⟩
  have hbias : (e + (Format.exponentBias .binary64 : Int) + (52 : Nat)).toNat = b := by
    simp [Format.exponentBias]
    omega
  have hmod : b % 2 ^ 11 = b := Nat.mod_eq_of_lt (by omega)
  have hnan : BitVec.ofNat 11 b ≠ -1#11 := by
    intro h
    have hnat := congrArg BitVec.toNat h
    rw [BitVec.toNat_ofNat, hmod] at hnat
    simp at hnat
    omega
  have hzero : BitVec.ofNat 11 b ≠ 0#11 := by
    intro h
    have hnat := congrArg BitVec.toNat h
    rw [BitVec.toNat_ofNat, hmod] at hnat
    simp at hnat
    omega
  unfold UnpackedFloat.pack
  simp only [hbias, hm]
  rw [if_neg (by omega), if_pos (by rfl)]
  unfold UnpackedFloat.unpack
  simp only [unpackExponent_packComponents, unpackMantissa_packComponents, sign_packComponents,
    if_neg hnan, if_neg hzero, hmant, BitVec.toNat_ofNat, hmod]
  congr 1
  simp [Format.exponentBias]
  omega

theorem ofNat_canonical {n : Nat} (hpos : 0 < n) (hlt : n < 2 ^ 53) :
    ∃ h, UnpackedFloat.ofNat .binary64 n =
      .finite .positive (n <<< (52 - n.log2)) (n.log2 - 52) h := by
  have hlog : n.log2 < 53 := (Nat.log2_lt hpos.ne').mpr hlt
  have hmant : (n <<< (52 - n.log2)).log2 = 52 := by
    rw [log2_shiftLeft hpos]
    omega
  have hmpos : 0 < n <<< (52 - n.log2) := by
    rw [Nat.shiftLeft_eq]
    exact Nat.mul_pos hpos (Nat.two_pow_pos _)
  have hcompare : compare (n : Int) 0 = .gt := by
    rw [Int.compare_eq_gt]
    omega
  have htarget : Format.targetExponent .binary64 (totalExponent n 0) = n.log2 - 52 := by
    simp [Format.targetExponent, totalExponent, Format.mantissaBits, Format.minExponent]
    omega
  have hamount : ((0 : Int) - (n.log2 - 52)).toNat = 52 - n.log2 := by omega
  have hexponent : (0 : Int) - (52 - n.log2 : Nat) = n.log2 - 52 := by omega
  refine ⟨hmpos, ?_⟩
  simp only [UnpackedFloat.ofNat, UnpackedFloat.ofInt, UnpackedFloat.normalize, hcompare,
    UnpackedFloat.round, Int.toNat_natCast, htarget, decreaseExponent, hamount, hexponent]
  have hround := roundWithAccuracy_canonical 0 hmant (e := n.log2 - 52) (by omega) hmpos
  rwa [Nat.shiftLeft_zero, Int.natCast_zero, Int.sub_zero] at hround

/-! ### Floats -/

/-- A `Float` that is zero, a positive number or infinite, with a positive sign. -/
def Nonneg (x : Float) : Prop := Unsigned x.toModel.unpack

theorem unsigned_ofNat (n : Nat) : Unsigned (UnpackedFloat.ofNat .binary64 n) := by
  unfold UnpackedFloat.ofNat UnpackedFloat.ofInt UnpackedFloat.normalize
  split
  · rename_i hneg
    rw [Int.compare_eq_lt] at hneg
    omega
  · trivial
  · exact unsigned_roundWithAccuracy _ _ _

theorem nonneg_toFloat (n : UInt64) : Nonneg n.toFloat := unsigned_pack (unsigned_ofNat _)

theorem toFloat_eq {n : UInt64} {m : UInt32} (h : n.toNat = m.toNat) : n.toFloat = m.toFloat := by
  show Float.ofModel (.ofUInt64 n) = Float.ofModel (.ofUInt32 m)
  congr 1
  show pack (UnpackedFloat.ofNat .binary64 n.toNat) = pack (UnpackedFloat.ofNat .binary64 m.toNat)
  rw [h]

theorem unpack_toFloat {n : UInt32} (hpos : 0 < n.toNat) : ∃ h, n.toFloat.toModel.unpack =
    .finite .positive (n.toNat <<< (52 - n.toNat.log2)) (n.toNat.log2 - 52) h := by
  have hlt := n.toNat_lt
  have hlog : n.toNat.log2 < 32 := (Nat.log2_lt hpos.ne').mpr hlt
  obtain ⟨h, hn⟩ := ofNat_canonical hpos (by omega)
  refine ⟨h, ?_⟩
  show UnpackedFloat.unpack .binary64 (UnpackedFloat.pack .binary64
    (UnpackedFloat.ofNat .binary64 n.toNat)) = _
  rw [hn]
  apply unpack_pack_canonical _ (by omega) (by omega)
  rw [log2_shiftLeft hpos]
  omega

/-- A quotient by a positive whole number keeps the sign. -/
theorem nonneg_div {x : Float} {n : UInt32} (hx : Nonneg x) (hn : 0 < n.toNat) :
    Nonneg (x / n.toFloat) := by
  obtain ⟨h, hunpack⟩ := unpack_toFloat hn
  apply unsigned_pack
  show Unsigned (UnpackedFloat.div .binary64 x.toModel.unpack n.toFloat.toModel.unpack)
  rw [hunpack]
  unfold Nonneg at hx
  match x.toModel.unpack, hx with
  | .infinity .positive, _ => trivial
  | .zero .positive, _ => trivial
  | .finite .positive _ _ _, _ => exact unsigned_roundWithAccuracy _ _ _

theorem unpack_neg_one : (-1.0 : Float).toModel.unpack = .finite .negative (2 ^ 52) (-52)
    (by decide) := by
  rfl

theorem unpack_neg_two : (-2.0 : Float).toModel.unpack = .finite .negative (2 ^ 52) (-51)
    (by decide) := by
  rfl

theorem negative_lt {x y : Float} {m : Nat} {e : Int} {h : 0 < m}
    (hy : y.toModel.unpack = .finite .negative m e h) (hx : Nonneg x) : y < x := by
  show decide (y.toModel < x.toModel) = true
  apply decide_eq_true
  show UnpackedFloat.lt y.toModel.unpack x.toModel.unpack = true
  rw [hy]
  unfold Nonneg at hx
  match x.toModel.unpack, hx with
  | .infinity .positive, _ => rfl
  | .zero .positive, _ => rfl
  | .finite .positive _ _ _, _ => rfl

theorem neg_one_lt {x : Float} (hx : Nonneg x) : -1.0 < x := negative_lt unpack_neg_one hx

theorem neg_two_lt {x : Float} (hx : Nonneg x) : -2.0 < x := negative_lt unpack_neg_two hx

theorem unpack_one : (1.0 : Float).toModel.unpack = .finite .positive (2 ^ 52) (-52)
    (by decide) := by
  rfl

theorem mul_finite {spec : Format} {s1 s2 : Sign} {m1 m2 : Nat} {e1 e2 : Int} {h1 : 0 < m1}
    {h2 : 0 < m2} : UnpackedFloat.mul spec (.finite s1 m1 e1 h1) (.finite s2 m2 e2 h2) =
      roundWithAccuracy spec (s1 * s2) (m1 * m2) (e1 + e2) .exact :=
  rfl

/-- The product with one is exact. -/
theorem toUInt32_one_mul (n : UInt32) : ((1.0 : Float) * n.toFloat).toUInt32 = n := by
  rcases Nat.eq_zero_or_pos n.toNat with hzero | hpos
  · obtain rfl : n = 0 := UInt32.toNat_inj.mp hzero
    rfl
  have hlog : n.toNat.log2 < 32 := (Nat.log2_lt hpos.ne').mpr n.toNat_lt
  obtain ⟨h, hunpack⟩ := unpack_toFloat hpos
  have hmant : (n.toNat <<< (52 - n.toNat.log2)).log2 = 52 := by
    rw [log2_shiftLeft hpos]
    omega
  have hmul : UnpackedFloat.mul .binary64 (1.0 : Float).toModel.unpack n.toFloat.toModel.unpack =
      .finite .positive (n.toNat <<< (52 - n.toNat.log2)) (n.toNat.log2 - 52) h := by
    have hexponent : (-52 : Int) + (n.toNat.log2 - 52) = n.toNat.log2 - 52 - (52 : Nat) := by omega
    rw [unpack_one, hunpack, mul_finite, hexponent, Nat.mul_comm, ← Nat.shiftLeft_eq]
    exact roundWithAccuracy_canonical 52 hmant (by omega) h
  show UnpackedFloat.toUInt32 (UnpackedFloat.unpack .binary64 (UnpackedFloat.pack .binary64
    (UnpackedFloat.mul .binary64 (1.0 : Float).toModel.unpack n.toFloat.toModel.unpack))) = n
  rw [hmul, unpack_pack_canonical hmant (by omega) (by omega)]
  have hamount : ((n.toNat.log2 : Int) - 52 - 0).toNat = 0 := by omega
  have hback : ((0 : Int) - (n.toNat.log2 - 52 - (0 : Nat))).toNat = 52 - n.toNat.log2 := by omega
  simp only [UnpackedFloat.toUInt32, UnpackedFloat.toInt, roundToInt, decreaseExponent, hamount,
    shiftToExponent, hback, Nat.shiftLeft_zero, ExtendedMantissa.ofMantissaAndAccuracy,
    HShiftRight.hShiftRight, repeat_shiftRightOne, Sign.apply, Int.toNat_natCast]
  rw [UInt32.ofNatClamp_eq_ofNat _ n.toNat_lt, UInt32.ofNat_toNat]

end Doppelganger.Lib
