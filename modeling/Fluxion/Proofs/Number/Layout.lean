import Mathlib.Data.List.TakeWhile
import Fluxion.Number.Layout
import Fluxion.Proofs.Number.Pattern
import Fluxion.Proofs.Number.Rounding

namespace Fluxion

theorem toNat_of_isDigit {c : Char} (hc : c.isDigit) : 48 ≤ c.toNat ∧ c.toNat ≤ 57 := by
  simpa [Char.isDigit, UInt32.le_iff_toNat_le] using hc

namespace Numeral

variable {front back cs : List Char} {c : Char}

theorem decimal?_whole (hf : ∀ c ∈ front, c.isDigit) (hne : front ≠ []) :
    decimal? front = some ⟨Nat.ofDigitChars 10 front 0, 0⟩ := by
  have htake : front.takeWhile Char.isDigit = front := List.takeWhile_eq_self_iff.mpr hf
  have hdrop : front.dropWhile Char.isDigit = [] := List.dropWhile_eq_nil_iff.mpr hf
  simp [decimal?, htake, hdrop, fraction, exponent?, hne]

theorem decimal?_point (hf : ∀ c ∈ front, c.isDigit) (hb : ∀ c ∈ back, c.isDigit)
    (hne : front ≠ []) :
    decimal? (front ++ '.' :: back) =
      some ⟨Nat.ofDigitChars 10 (front ++ back) 0, -back.length⟩ := by
  have htake : (front ++ '.' :: back).takeWhile Char.isDigit = front := by
    rw [List.takeWhile_append_of_pos hf]
    simp
  have hdrop : (front ++ '.' :: back).dropWhile Char.isDigit = '.' :: back := by
    rw [List.dropWhile_append_of_pos hf]
    simp
  have htake' : back.takeWhile Char.isDigit = back := List.takeWhile_eq_self_iff.mpr hb
  have hdrop' : back.dropWhile Char.isDigit = [] := List.dropWhile_eq_nil_iff.mpr hb
  simp [decimal?, htake, hdrop, fraction, htake', hdrop', exponent?, hne]

/-- A text that starts with a digit is no word for infinity. -/
theorem size?_of_decimal? {d : Decimal} (hc : c.isDigit) (hd : decimal? (c :: cs) = some d) :
    size? (c :: cs) = some d.nearest := by
  have hlower : c.toLower ≠ 'i' := by
    have hrange := toNat_of_isDigit hc
    have hupper : ¬ (c.val ≥ 'A'.val ∧ c.val ≤ 'Z'.val) := by
      have hval : c.val.toNat = c.toNat := rfl
      simp only [ge_iff_le, UInt32.le_iff_toNat_le, hval]
      simp
      omega
    rw [Char.toLower, dif_neg hupper]
    rintro rfl
    cases hc
  rw [size?, hd, if_neg (by simp [hlower])]
  rfl

/-- A text that starts with a digit has no sign. -/
theorem signed_of_isDigit (hc : c.isDigit) : signed (c :: cs) = (false, c :: cs) := by
  unfold signed
  split
  · rename_i h
    obtain ⟨rfl, -⟩ := List.cons.inj h
    cases hc
  · rename_i h
    obtain ⟨rfl, -⟩ := List.cons.inj h
    cases hc
  · rfl

end Numeral

namespace Places

/-- The decimal that some places spell. -/
def decimal (p : Places) : Decimal :=
  ⟨Nat.ofDigitChars 10 p.digits 0, p.point - p.digits.length⟩

theorem exists_toDigits_eq (d : Decimal) :
    ∃ k, Nat.toDigits 10 d.digits = (ofDecimal d).digits ++ List.replicate k '0' := by
  have hzeros : (Nat.toDigits 10 d.digits).reverse.takeWhile (· == '0') = List.replicate
      ((Nat.toDigits 10 d.digits).reverse.takeWhile (· == '0')).length '0' := by
    refine List.eq_replicate_of_mem fun c hc => ?_
    simpa using List.mem_takeWhile_imp hc
  refine ⟨((Nat.toDigits 10 d.digits).reverse.takeWhile (· == '0')).length, ?_⟩
  rw [← List.reverse_inj, List.reverse_append, List.reverse_replicate, ← hzeros]
  simp [ofDecimal]

theorem nearest_decimal (d : Decimal) : (ofDecimal d).decimal.nearest = d.nearest := by
  obtain ⟨k, hk⟩ := exists_toDigits_eq d
  have hdigits : d.digits = Nat.ofDigitChars 10 (ofDecimal d).digits 0 * 10 ^ k := by
    rw [← Nat.ofDigitChars_ten_toDigits (n := d.digits), hk, Nat.ofDigitChars_append,
      Nat.ofDigitChars_replicate_zero, Nat.mul_comm]
  have hpoint : (ofDecimal d).point - (ofDecimal d).digits.length = d.exponent + k := by
    have hlen := congrArg List.length hk
    simp only [List.length_append, List.length_replicate] at hlen
    simp only [ofDecimal] at hlen ⊢
    omega
  obtain ⟨digits, exponent⟩ := d
  rw [decimal, hpoint, ← Decimal.nearest_scale, ← hdigits]

/-- Digits with at least one among them. -/
structure Proper (p : Places) : Prop where
  digits : ∀ c ∈ p.digits, c.isDigit
  ne_nil : p.digits ≠ []

theorem ofDecimal_proper {d : Decimal} (hd : 0 < d.digits) : (ofDecimal d).Proper := by
  obtain ⟨k, hk⟩ := exists_toDigits_eq d
  refine ⟨fun c hc => ?_, fun hnil => ?_⟩
  · refine Nat.isDigit_of_mem_toDigits (b := 10) (n := d.digits) (by decide) (by decide) ?_
    rw [hk]
    exact List.mem_append_left _ hc
  · have hvalue := Nat.ofDigitChars_ten_toDigits (n := d.digits)
    rw [hk, hnil, List.nil_append, Nat.ofDigitChars_replicate_zero, Nat.mul_zero] at hvalue
    omega

theorem isDigit_of_mem_replicate {c : Char} {k : Nat} (hc : c ∈ List.replicate k '0') :
    c.isDigit := by
  rw [List.eq_of_mem_replicate hc]
  rfl

theorem Proper.positional_eq_cons {p : Places} (hp : p.Proper) :
    ∃ c cs, p.positional = c :: cs ∧ c.isDigit := by
  obtain ⟨first, rest, hdigits⟩ := List.exists_cons_of_ne_nil hp.ne_nil
  have hfirst : first.isDigit := hp.digits first (by simp [hdigits])
  unfold positional
  split
  · exact ⟨_, _, rfl, rfl⟩
  · rename_i hpoint
    obtain ⟨point, hpos⟩ : ∃ n, p.point.toNat = n + 1 := ⟨p.point.toNat - 1, by omega⟩
    split
    · exact ⟨first, _, by rw [hdigits, List.cons_append], hfirst⟩
    · exact ⟨first, _, by rw [hdigits, hpos, List.take_succ_cons, List.cons_append], hfirst⟩

theorem Proper.isDigit_or_point {p : Places} (hp : p.Proper) {c : Char} (hc : c ∈ p.positional) :
    c.isDigit ∨ c = '.' := by
  unfold positional at hc
  split at hc
  · simp only [List.mem_cons, List.mem_append] at hc
    rcases hc with rfl | rfl | hc | hc
    · exact .inl rfl
    · exact .inr rfl
    · exact .inl (isDigit_of_mem_replicate hc)
    · exact .inl (hp.digits c hc)
  · split at hc
    · exact .inl ((List.mem_append.mp hc).elim (hp.digits c) isDigit_of_mem_replicate)
    · simp only [List.mem_cons, List.mem_append] at hc
      rcases hc with hc | rfl | hc
      · exact .inl (hp.digits c (List.mem_of_mem_take hc))
      · exact .inr rfl
      · exact .inl (hp.digits c (List.mem_of_mem_drop hc))

/-- Written out in full, places read as a decimal of the same value. -/
theorem Proper.decimal?_positional {p : Places} (hp : p.Proper) :
    ∃ d, Numeral.decimal? p.positional = some d ∧ d.nearest = p.decimal.nearest := by
  unfold positional
  split
  · rename_i hpoint
    have hback : ∀ c ∈ List.replicate (-p.point).toNat '0' ++ p.digits, c.isDigit := fun c hc =>
      (List.mem_append.mp hc).elim isDigit_of_mem_replicate (hp.digits c)
    refine ⟨_, @Numeral.decimal?_point ['0'] _ (by simp) hback (by simp), congrArg _ ?_⟩
    rw [decimal, Decimal.mk.injEq]
    constructor
    · simp only [Nat.ofDigitChars_append, Nat.ofDigitChars_replicate_zero]
      rfl
    · simp only [List.length_append, List.length_replicate]
      omega
  · rename_i hpoint
    split
    · rename_i hwhole
      refine ⟨_, Numeral.decimal?_whole (fun c hc => ?_) (by simp [hp.ne_nil]), ?_⟩
      · exact (List.mem_append.mp hc).elim (hp.digits c) isDigit_of_mem_replicate
      · have hle : (p.digits.length : Int) ≤ p.point := by simpa [isWhole] using hwhole
        rw [Nat.ofDigitChars_append, Nat.ofDigitChars_replicate_zero, Nat.mul_comm,
          Decimal.nearest_scale, decimal]
        congr 2
        omega
    · rename_i hwhole
      have hlt : p.point < p.digits.length := by simpa [isWhole] using hwhole
      refine ⟨_, Numeral.decimal?_point (fun c hc => hp.digits c (List.mem_of_mem_take hc))
        (fun c hc => hp.digits c (List.mem_of_mem_drop hc)) ?_, congrArg _ ?_⟩
      · simp only [ne_eq, List.take_eq_nil_iff, hp.ne_nil, or_false]
        omega
      · rw [List.take_append_drop, decimal, Decimal.mk.injEq, List.length_drop]
        exact ⟨rfl, by omega⟩

end Places

namespace Layout

theorem read?_of_isDigit {cs : List Char} {c : Char} {d : Decimal} (hc : c.isDigit)
    (negative : Bool) (hd : Numeral.decimal? (c :: cs) = some d) :
    Numeral.read? (if negative then '-' :: c :: cs else c :: cs) =
      some (Binary64.ofSize negative d.nearest) := by
  cases negative with
  | true => simp [Numeral.read?, Numeral.signed, Numeral.size?_of_decimal? hc hd]
  | false => simp [Numeral.read?, Numeral.signed_of_isDigit hc, Numeral.size?_of_decimal? hc hd]

/-- A finite size is written with digits alone. -/
theorem sizeChars_finite {size : Nat} (hs : 0 < size) (hfin : size < Binary64.infinite) :
    plain.sizeChars size = (Places.ofDecimal (Decimal.shortest size)).positional := by
  have hzero : size ≠ 0 := Nat.ne_of_gt hs
  have hover : ¬ Binary64.infinite < size := Nat.not_lt.mpr (Nat.le_of_lt hfin)
  have hinf : Binary64.infinite ≠ size := Nat.ne_of_gt hfin
  have hpositional : plain.isPositional (Places.ofDecimal (Decimal.shortest size)) := rfl
  have hmark :
      (if (Places.ofDecimal (Decimal.shortest size)).isWhole then plain.wholeMark else []) = [] :=
    ite_self []
  simp only [sizeChars, if_neg hzero, if_neg hover, if_neg hinf, hpositional, if_true, hmark,
    List.append_nil]

theorem proper_shortest {size : Nat} (hs : 0 < size) (hfin : size < Binary64.infinite) :
    (Places.ofDecimal (Decimal.shortest size)).Proper :=
  Places.ofDecimal_proper
    (Decimal.digits_pos_of_nearest (by rwa [Decimal.nearest_shortest hs hfin]))

/-- The size of a number that is one, read back. -/
theorem read?_sizeChars {size : Nat} (hs : size ≤ Binary64.infinite) (negative : Bool) :
    Numeral.read? (if negative then '-' :: plain.sizeChars size else plain.sizeChars size) =
      some (Binary64.ofSize negative size) := by
  rcases Nat.eq_zero_or_pos size with rfl | hpos
  · have hchars : plain.sizeChars 0 = ['0'] := rfl
    have hzero : Numeral.decimal? ['0'] = some ⟨0, 0⟩ := rfl
    rw [hchars, read?_of_isDigit rfl negative hzero, Decimal.nearest_zero]
  · rcases Nat.eq_or_lt_of_le hs with rfl | hfin
    · have hchars : plain.sizeChars Binary64.infinite = ['i', 'n', 'f'] := rfl
      rw [hchars]
      cases negative <;> rfl
    · obtain ⟨c, cs, hchars, hc⟩ := (proper_shortest hpos hfin).positional_eq_cons
      obtain ⟨d, hd, hnearest⟩ := (proper_shortest hpos hfin).decimal?_positional
      rw [hchars] at hd
      rw [sizeChars_finite hpos hfin, hchars, read?_of_isDigit hc negative hd, hnearest,
        Places.nearest_decimal, Decimal.nearest_shortest hpos hfin]

/-- What is written is read back, sign and all, to the same pattern. -/
theorem read?_chars {x : Float} (hx : Binary64.size x ≤ Binary64.infinite) :
    Numeral.read? (plain.chars x) = some x := by
  have h := read?_sizeChars hx (Binary64.isNegative x)
  rw [Binary64.ofSize_size] at h
  simpa [chars, hx] using h

theorem chars_of_isNaN {x : Float} (hx : Binary64.infinite < Binary64.size x) :
    plain.chars x = ['N', 'a', 'N'] := by
  have hle : ¬ Binary64.size x ≤ Binary64.infinite := Nat.not_le.mpr hx
  have hzero : Binary64.size x ≠ 0 := by omega
  simp [chars, sizeChars, hle, hzero, hx]

/-- Numbers are written with digits, a point, a minus, and the letters of two words. -/
theorem mem_sizeChars {size : Nat} {c : Char} (hc : c ∈ plain.sizeChars size) :
    c.isDigit ∨ c ∈ ['.', 'N', 'a', 'i', 'n', 'f'] := by
  rcases Nat.eq_zero_or_pos size with rfl | hpos
  · have hchars : plain.sizeChars 0 = ['0'] := rfl
    rw [hchars, List.mem_singleton] at hc
    exact .inl (by rw [hc]; rfl)
  · rcases Nat.lt_trichotomy size Binary64.infinite with hfin | rfl | hover
    · rw [sizeChars_finite hpos hfin] at hc
      rcases (proper_shortest hpos hfin).isDigit_or_point hc with hdigit | rfl
      · exact .inl hdigit
      · exact .inr (by simp)
    · have hchars : plain.sizeChars Binary64.infinite = ['i', 'n', 'f'] := rfl
      rw [hchars] at hc
      have hsub : ['i', 'n', 'f'] ⊆ ['.', 'N', 'a', 'i', 'n', 'f'] := by simp
      exact .inr (hsub hc)
    · have hchars : plain.sizeChars size = ['N', 'a', 'N'] := by
        simp [sizeChars, Nat.ne_of_gt hpos, hover]
      rw [hchars] at hc
      have hsub : ['N', 'a', 'N'] ⊆ ['.', 'N', 'a', 'i', 'n', 'f'] := by simp
      exact .inr (hsub hc)

theorem sizeChars_ne_nil (size : Nat) : plain.sizeChars size ≠ [] := by
  rcases Nat.eq_zero_or_pos size with rfl | hpos
  · simp [sizeChars]
  · rcases Nat.lt_trichotomy size Binary64.infinite with hfin | rfl | hover
    · obtain ⟨c, cs, hchars, -⟩ := (proper_shortest hpos hfin).positional_eq_cons
      simp [sizeChars_finite hpos hfin, hchars]
    · exact List.cons_ne_nil 'i' ['n', 'f']
    · simp [sizeChars, Nat.ne_of_gt hpos, hover]

theorem mem_chars {x : Float} {c : Char} (hc : c ∈ plain.chars x) :
    c.isDigit ∨ c ∈ ['-', '.', 'N', 'a', 'i', 'n', 'f'] := by
  have hsize (h : c ∈ plain.sizeChars (Binary64.size x)) :
      c.isDigit ∨ c ∈ ['-', '.', 'N', 'a', 'i', 'n', 'f'] :=
    (mem_sizeChars h).imp_right (List.mem_cons_of_mem _)
  unfold chars at hc
  dsimp only at hc
  split at hc
  · rcases List.mem_cons.mp hc with rfl | hc
    · exact .inr (by simp)
    · exact hsize hc
  · exact hsize hc

theorem chars_ne_nil (x : Float) : plain.chars x ≠ [] := by
  unfold chars
  dsimp only
  split
  · simp
  · exact sizeChars_ne_nil _

end Layout
end Fluxion
