import Mathlib
import Fluxion.Proofs.Number.Numeral

namespace Fluxion

open Float.Model (Format)
open Float.Model.UnpackedFloat

theorem isNaN_of_size {x : Float} (hx : Binary64.infinite < Binary64.size x) : x.isNaN = true := by
  have hbits := x.toBits.toNat_lt
  simp only [Binary64.infinite, Binary64.size, Nat.reduceShiftLeft] at hx
  have hexponent : @unpackExponent Format.binary64 x.toBits.toBitVec = -1#_ := by
    refine BitVec.eq_of_toNat_eq ?_
    simp [unpackExponent, Nat.shiftRight_eq_div_pow]
    omega
  have hmantissa : @unpackMantissa Format.binary64 x.toBits.toBitVec ≠ 0#_ := by
    intro hzero
    have hzero := congrArg BitVec.toNat hzero
    simp [unpackMantissa] at hzero
    omega
  change (unpack Format.binary64 x.toBits.toBitVec).isNaN = true
  dsimp only [unpack]
  rw [if_pos hexponent, if_neg hmantissa]
  rfl

/-- The patterns past infinity are those that are not a number. -/
theorem isNaN_iff (x : Float) : x.isNaN = true ↔ Binary64.infinite < Binary64.size x := by
  refine ⟨fun hx => Nat.lt_of_not_le fun hle => ?_, isNaN_of_size⟩
  have hnot := Binary64.isNaN_ofBits hle
  rw [Float.ofBits_toBits, hx] at hnot
  cases hnot

/-- A number is its sign and its size. -/
theorem Binary64.ofSize_size (x : Float) : ofSize (isNegative x) (size x) = x := by
  have hlt := x.toBits.toNat_lt
  have hbits : UInt64.ofNat (if isNegative x then 1 <<< 63 + size x else size x) = x.toBits := by
    refine UInt64.toNat_inj.mp ?_
    simp only [isNegative, size, UInt64.toNat_ofNat', Nat.reduceShiftLeft, decide_eq_true_eq]
    split <;> omega
  rw [ofSize, hbits, Float.ofBits_toBits]

end Fluxion
