import Mathlib.Tactic.Ring
import Fluxion.Number.Decimal

namespace Fluxion

theorem divHalfEven_mul_right {c : Nat} (hc : 0 < c) (n d : Nat) :
    divHalfEven (n * c) (d * c) = divHalfEven n d := by
  have hlt : d * c < 2 * (n % d * c) ↔ d < 2 * (n % d) := by
    rw [← Nat.mul_assoc]
    exact Nat.mul_lt_mul_right hc
  have heq : d * c = 2 * (n % d * c) ↔ d = 2 * (n % d) := by
    rw [← Nat.mul_assoc]
    exact Nat.mul_left_inj (Nat.ne_of_gt hc)
  simp only [divHalfEven, Nat.mul_mod_mul_right, Nat.mul_div_mul_right _ _ hc, hlt, heq]

theorem divHalfEven_mul_self (q : Nat) {d : Nat} (hd : 0 < d) : divHalfEven (q * d) d = q := by
  have hne : d ≠ 0 := Nat.ne_of_gt hd
  simp [divHalfEven, Nat.mul_div_cancel _ hd, hne]

theorem divHalfEven_eq_zero {n d : Nat} (h : 2 * n < d) : divHalfEven n d = 0 := by
  have hlt : n < d := by omega
  have hnot : ¬ (d < 2 * n ∨ d = 2 * n ∧ 0 % 2 = 1) := by omega
  rw [divHalfEven, Nat.mod_eq_of_lt hlt, Nat.div_eq_of_lt hlt, if_neg hnot]

namespace Binary64

theorem nearest_mul_right {c : Nat} (hc : 0 < c) (n d : Nat) :
    nearest (n * c) (d * c) = nearest n d := by
  have hshift (shift : Nat) : (d * c) <<< shift = (d <<< shift) * c := by
    rw [Nat.shiftLeft_eq, Nat.shiftLeft_eq, Nat.mul_right_comm]
  simp only [nearest, Nat.mul_div_mul_right _ _ hc, hshift, divHalfEven_mul_right hc]

/-- Rounding depends on the value of a fraction only. -/
theorem nearest_congr {n d n' d' : Nat} (hd : 0 < d) (hd' : 0 < d') (h : n * d' = n' * d) :
    nearest n d = nearest n' d' := by
  rw [← nearest_mul_right hd' n d, h, Nat.mul_comm d d', nearest_mul_right hd]

theorem nearest_eq_zero {n d : Nat} (h : 2 * n < d) : nearest n d = 0 := by
  have hshift : (n / d).log2 - 52 = 0 := by rw [Nat.div_eq_of_lt (by omega), Nat.log2_zero]
  simp only [nearest, hshift, Nat.shiftLeft_zero, divHalfEven_eq_zero h]
  rfl

theorem nearest_eq_infinite {n d k : Nat} (hd : 0 < d) (hk : 2099 ≤ k) (h : d <<< k ≤ n) :
    nearest n d = infinite := by
  have hq : 2 ^ k ≤ n / d := by
    rw [Nat.le_div_iff_mul_le hd, Nat.mul_comm, ← Nat.shiftLeft_eq]
    exact h
  have hlog : k ≤ (n / d).log2 :=
    (Nat.le_log2 (Nat.ne_of_gt (Nat.lt_of_lt_of_le (Nat.two_pow_pos _) hq))).mpr hq
  refine Nat.min_eq_left ?_
  simp only [infinite, Nat.shiftLeft_eq]
  omega

/-- A significand with its leading bit in place is as long as its exponent says. -/
theorem log2_shiftLeft {m : Nat} (hm : m.log2 = 52) (shift : Nat) :
    (m <<< shift).log2 - 52 = shift := by
  have hne : m ≠ 0 := by
    rintro rfl
    simp at hm
  have hlog : (m <<< shift).log2 = 52 + shift := by
    obtain ⟨hle, hlt⟩ := (Nat.log2_eq_iff hne).mp hm
    rw [Nat.shiftLeft_eq, Nat.log2_eq_iff
      (Nat.mul_ne_zero hne (Nat.ne_of_gt (Nat.two_pow_pos shift)))]
    constructor
    · rw [Nat.pow_add]
      exact Nat.mul_le_mul_right _ hle
    · rw [Nat.add_right_comm, Nat.pow_add]
      exact Nat.mul_lt_mul_of_pos_right hlt (Nat.two_pow_pos shift)
  omega

/-- A finite size is not rounded. -/
theorem nearest_units {size d : Nat} (hs : size < infinite) (hd : 0 < d) :
    nearest (units size * d) d = size := by
  have hmin : min infinite size = size := Nat.min_eq_right (Nat.le_of_lt hs)
  simp only [nearest, Nat.mul_div_cancel _ hd]
  unfold units
  split
  · rename_i hsmall
    have hshift : size.log2 - 52 = 0 := by
      by_cases hzero : size = 0
      · simp [hzero]
      · have hlog : size.log2 < 52 := (Nat.log2_lt hzero).mpr (by simpa using hsmall)
        omega
    simp [hshift, divHalfEven_mul_self _ hd, hmin]
  · rename_i hlarge
    simp only [Nat.reduceShiftLeft, Nat.shiftRight_eq_div_pow] at hlarge ⊢
    have hm : (4503599627370496 + size % 4503599627370496).log2 = 52 :=
      (Nat.log2_eq_iff (by omega)).mpr (by omega)
    rw [log2_shiftLeft hm, Nat.shiftLeft_eq _ (size / 2 ^ 52 - 1), Nat.shiftLeft_eq d,
      Nat.mul_assoc, Nat.mul_comm (2 ^ (size / 2 ^ 52 - 1)) d,
      divHalfEven_mul_self _ (Nat.mul_pos hd (Nat.two_pow_pos _)), Nat.shiftLeft_eq]
    omega

theorem units_pos {size : Nat} (hs : 0 < size) : 0 < units size := by
  unfold units
  split
  · exact hs
  · rw [Nat.shiftLeft_eq]
    exact Nat.mul_pos (Nat.add_pos_left (by decide) _) (Nat.two_pow_pos _)
end Binary64

namespace Decimal

theorem nearest_zero (e : Int) : nearest ⟨0, e⟩ = 0 := rfl

/-- The limits on the exponent save work and change nothing. -/
theorem nearest_eq {m : Nat} (hm : 0 < m) (e : Int) :
    nearest ⟨m, e⟩ = Binary64.nearest ((m * 10 ^ e.toNat) <<< 1074) (10 ^ (-e).toNat) := by
  simp only [nearest, if_neg (Nat.ne_of_gt hm), Nat.pow_eq]
  split
  · rename_i he
    have hneg : (-e).toNat = 0 := by omega
    have hten : 1 <<< 1025 ≤ 10 ^ e.toNat := calc
      1 <<< 1025 ≤ 10 ^ 310 := by decide +kernel
      _ ≤ 10 ^ e.toNat := Nat.pow_le_pow_right (by decide) (by omega)
    have hle : 1 <<< 1025 ≤ m * 10 ^ e.toNat := Nat.le_trans hten (Nat.le_mul_of_pos_left _ hm)
    rw [hneg, Nat.pow_zero]
    refine (Binary64.nearest_eq_infinite (k := 1025 + 1074) Nat.one_pos (by decide) ?_).symm
    rw [Nat.shiftLeft_add]
    generalize 1074 = unit
    simp only [Nat.shiftLeft_eq _ unit]
    exact Nat.mul_le_mul_right _ hle
  · split
    · rename_i he
      have hpos : e.toNat = 0 := by omega
      have hlt : m < 10 ^ (m.log2 + 1) :=
        Nat.lt_of_lt_of_le Nat.lt_log2_self (Nat.pow_le_pow_left (by decide) _)
      have hten : 1 <<< 1075 ≤ 10 ^ ((-e).toNat - (m.log2 + 1)) := calc
        1 <<< 1075 ≤ 10 ^ 330 := by decide +kernel
        _ ≤ 10 ^ ((-e).toNat - (m.log2 + 1)) := Nat.pow_le_pow_right (by decide) (by omega)
      have hdouble (k : Nat) : 2 * m <<< k = m * 1 <<< (k + 1) := by
        simp only [Nat.shiftLeft_eq]
        ring
      rw [hpos, Nat.pow_zero, Nat.mul_one]
      refine (Binary64.nearest_eq_zero ?_).symm
      calc
        2 * m <<< 1074 = m * 1 <<< 1075 := hdouble 1074
        _ < 10 ^ (m.log2 + 1) * 1 <<< 1075 := Nat.mul_lt_mul_of_pos_right hlt (by decide +kernel)
        _ ≤ 10 ^ (m.log2 + 1) * 10 ^ ((-e).toNat - (m.log2 + 1)) := Nat.mul_le_mul_left _ hten
        _ = 10 ^ (-e).toNat := by rw [← Nat.pow_add, Nat.add_sub_of_le (by omega)]
    · rfl

/-- Zeros behind the last digit do not change what a decimal rounds to. -/
theorem nearest_scale (m k : Nat) (e : Int) :
    nearest ⟨m * 10 ^ k, e⟩ = nearest ⟨m, e + k⟩ := by
  rcases Nat.eq_zero_or_pos m with rfl | hm
  · rw [Nat.zero_mul, nearest_zero, nearest_zero]
  · rw [nearest_eq hm, nearest_eq (Nat.mul_pos hm (Nat.pow_pos (by decide)))]
    refine Binary64.nearest_congr (Nat.pow_pos (by decide)) (Nat.pow_pos (by decide)) ?_
    generalize 1074 = unit
    have hexp : 10 ^ (k + e.toNat + (-(e + k)).toNat) = 10 ^ ((e + k).toNat + (-e).toNat) :=
      congrArg (10 ^ ·) (by omega)
    rw [Nat.pow_add, Nat.pow_add, Nat.pow_add] at hexp
    calc
      _ = m * (10 ^ k * 10 ^ e.toNat * 10 ^ (-(e + k)).toNat) * 2 ^ unit := by
        rw [Nat.shiftLeft_eq]; ring
      _ = _ := by
        rw [hexp, Nat.shiftLeft_eq]; ring

theorem nearest_exact {size : Nat} (hs : 0 < size) (hfin : size < Binary64.infinite) :
    (exact size).nearest = size := by
  have hpos (k : Nat) : 0 < Binary64.units size * Nat.pow 5 k :=
    Nat.mul_pos (Binary64.units_pos hs) (Nat.pow_pos (by decide))
  have hten (k : Nat) :
      (Binary64.units size * Nat.pow 5 k) <<< k = Binary64.units size * 10 ^ k := by
    rw [Nat.shiftLeft_eq, Nat.mul_assoc, Nat.pow_eq, ← Nat.mul_pow]
  have hround (k : Nat) (hk : k = 1074) :
      nearest ⟨Binary64.units size * Nat.pow 5 k, -k⟩ = size := by
    have hup : (-k : Int).toNat = 0 := by omega
    have hdown : (- -k : Int).toNat = k := by omega
    rw [nearest_eq (hpos k), hup, hdown, ← hk, Nat.pow_zero, Nat.mul_one, hten]
    exact Binary64.nearest_units hfin (Nat.pow_pos (by decide))
  obtain ⟨k, hk⟩ : ∃ k : Nat, k = 1074 := ⟨_, rfl⟩
  have hi : (-1074 : Int) = -k := by omega
  rw [exact, hi, ← hk]
  exact hround k hk

theorem nearest_of_without? {size scaled dropped : Nat} {d : Decimal}
    (hd : without? size scaled dropped = some d) : d.nearest = size := by
  unfold without? at hd
  have h := List.find?_some hd
  exact eq_of_beq h

/-- The fewest digits that are found read back, and where none are, all of them do. -/
theorem nearest_shortest {size : Nat} (hs : 0 < size) (hfin : size < Binary64.infinite) :
    (shortest size).nearest = size := by
  unfold shortest
  dsimp only
  cases hfound : (List.range' 1 17).findSome? _ with
  | none => exact nearest_exact hs hfin
  | some d =>
    obtain ⟨before, count, after, -, hd, -⟩ := List.findSome?_eq_some_iff.mp hfound
    exact nearest_of_without? hd

theorem digits_pos_of_nearest {d : Decimal} (hd : 0 < d.nearest) : 0 < d.digits := by
  refine Nat.pos_of_ne_zero fun hzero => ?_
  rw [nearest, if_pos hzero] at hd
  exact Nat.lt_irrefl 0 hd

end Decimal
end Fluxion
