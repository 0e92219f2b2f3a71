import Fluxion.Number.Numeral

namespace Fluxion

open Float.Model (UnpackedFloat)
open Float.Model.UnpackedFloat

/-- A pattern is a number if its mantissa is zero wherever its exponent is the greatest one. -/
theorem isNaN_unpack {spec : Float.Model.Format} {b : BitVec spec.numBits}
    (hb : unpackExponent b = -1#_ → unpackMantissa b = 0#_) : (unpack spec b).isNaN = false := by
  dsimp only [unpack]
  by_cases he : unpackExponent b = -1#_
  · rw [if_pos he, if_pos (hb he)]
    rfl
  · rw [if_neg he]
    by_cases hzero : unpackExponent b = 0#_
    · rw [if_pos hzero]
      by_cases hm : unpackMantissa b = 0#_
      · rw [dif_pos hm]
        rfl
      · rw [dif_neg hm]
        rfl
    · rw [if_neg hzero]
      rfl

/-- Packing makes no number into something else. -/
theorem isNaN_unpack_pack {spec : Float.Model.Format} {f : UnpackedFloat} (hf : f.isNaN = false) :
    (unpack spec (pack spec f)).isNaN = false := by
  refine isNaN_unpack ?_
  fun_cases pack with
  | case1 => cases hf
  | case2 s => simp [packedInfinity]
  | case3 s => simp [packedZero]
  | case4 s m e hm biased hle => simp [packedInfinity]
  | case5 s m e hm actual biased hlt hnormal =>
    intro he
    rw [unpackExponent_packComponents, ← BitVec.toNat_inj, BitVec.toNat_ofNat,
      BitVec.neg_one_eq_allOnes, BitVec.toNat_allOnes, Nat.mod_eq_of_lt (by omega)] at he
    omega
  | case6 s m e hm actual biased hlt hnormal =>
    intro he
    have hbits := spec.he
    simp [BitVec.neg_one_eq_allOnes, ← BitVec.toNat_inj] at he
    omega

namespace Binary64

theorem isNaN_ofBits {bits : UInt64} (hb : bits.toNat % 1 <<< 63 ≤ infinite) :
    (Float.ofBits bits).isNaN = false := by
  refine isNaN_unpack_pack (isNaN_unpack fun he => ?_)
  have hexponent : bits.toNat / 2 ^ 52 % 2 ^ 11 = 2047 := by
    simpa [unpackExponent, Nat.shiftRight_eq_div_pow] using congrArg BitVec.toNat he
  have hmantissa : bits.toNat % 2 ^ 52 = 0 := by
    simp only [infinite, Nat.reduceShiftLeft] at hb
    omega
  rw [← BitVec.toNat_inj]
  simpa [unpackMantissa] using hmantissa

theorem isNaN_ofSize {negative : Bool} {size : Nat} (hs : size ≤ infinite) :
    (ofSize negative size).isNaN = false := by
  refine isNaN_ofBits ?_
  simp only [infinite, UInt64.toNat_ofNat', Nat.reduceShiftLeft] at hs ⊢
  split <;> omega

theorem nearest_le (n d : Nat) : nearest n d ≤ infinite := Nat.min_le_left _ _

end Binary64

theorem Decimal.nearest_le (d : Decimal) : d.nearest ≤ Binary64.infinite := by
  unfold nearest
  split
  · exact Nat.zero_le _
  · split
    · exact Nat.le_refl _
    · split
      · exact Nat.zero_le _
      · exact Binary64.nearest_le _ _

namespace Numeral

theorem size_le {cs : List Char} {size : Nat} (hs : size? cs = some size) :
    size ≤ Binary64.infinite := by
  unfold size? at hs
  split at hs
  · obtain rfl := Option.some.inj hs
    exact Nat.le_refl _
  · obtain ⟨d, -, rfl⟩ := Option.map_eq_some_iff.mp hs
    exact d.nearest_le

theorem isNaN_of_read {cs : List Char} {x : Float} (hx : read? cs = some x) : x.isNaN = false := by
  obtain ⟨size, hs, rfl⟩ := Option.map_eq_some_iff.mp hx
  exact Binary64.isNaN_ofSize (size_le hs)

end Numeral
end Fluxion
