import Mathlib.Algebra.Group.Nat.Defs

namespace Fluxion.Utf8

open String (utf8EncodeChar)

variable {piece rest : List UInt8} {b : UInt8} {c d : Char} {size count n m : Nat}

/-- The last digits of a number to the base 64, one a byte. -/
def trail : Nat → Nat → List UInt8
  | 0, _ => []
  | count + 1, n => .ofNat (0x80 + n / 64 ^ count % 64) :: trail count n

/-- What the first byte of a character holds besides the leading digit. -/
def mark : Nat → Nat
  | 2 => 0xC0
  | 3 => 0xE0
  | 4 => 0xF0
  | _ => 0

def byteCount (n : Nat) : Nat :=
  if n ≤ 0x7F then 1 else if n ≤ 0x7FF then 2 else if n ≤ 0xFFFF then 3 else 4

/-- The number of a character of so many bytes. -/
def Scalar (size n : Nat) : Prop := n.isValidChar ∧ byteCount n = size

theorem scalar_one_iff : Scalar 1 n ↔ n ≤ 0x7F := by
  rw [Scalar, Nat.isValidChar]
  fun_cases byteCount <;> omega

theorem scalar_two_iff : Scalar 2 n ↔ 0x80 ≤ n ∧ n ≤ 0x7FF := by
  rw [Scalar, Nat.isValidChar]
  fun_cases byteCount <;> omega

theorem scalar_three_iff :
    Scalar 3 n ↔ 0x800 ≤ n ∧ n ≤ 0xFFFF ∧ (n < 0xD800 ∨ 0xDFFF < n) := by
  rw [Scalar, Nat.isValidChar]
  fun_cases byteCount <;> omega

theorem scalar_four_iff : Scalar 4 n ↔ 0x10000 ≤ n ∧ n ≤ 0x10FFFF := by
  rw [Scalar, Nat.isValidChar]
  fun_cases byteCount <;> omega

theorem scalar_toNat (c : Char) : Scalar c.utf8Size c.toNat := ⟨c.valid, rfl⟩

theorem Scalar.toNat_ofNat (h : Scalar size n) : (Char.ofNat n).toNat = n := by
  rw [Char.ofNat, dif_pos h.1]
  rfl

theorem Scalar.utf8Size_ofNat (h : Scalar size n) : (Char.ofNat n).utf8Size = size := by
  have hcount : byteCount (Char.ofNat n).toNat = size := by rw [h.toNat_ofNat, h.2]
  exact hcount

/-- The two leading digits tell whether a number is that of a character of so many bytes,
and no other digit matters: overlong forms, surrogates and values past the last code
point are cut off at the second one. -/
theorem Scalar.congr (h : Scalar size n) (count : Nat) (hcount : count + 2 ≤ size)
    (heq : m / 64 ^ count = n / 64 ^ count) : Scalar size m := by
  have hsize : size ≤ 4 := h.2 ▸ by fun_cases byteCount n <;> decide
  obtain ⟨rfl, rfl⟩ | ⟨rfl, rfl | rfl⟩ | ⟨rfl, rfl | rfl | rfl⟩ :
      size = 2 ∧ count = 0 ∨ size = 3 ∧ (count = 0 ∨ count = 1) ∨
        size = 4 ∧ (count = 0 ∨ count = 1 ∨ count = 2) := by omega
  all_goals
    simp only [scalar_two_iff, scalar_three_iff, scalar_four_iff, Nat.reducePow] at *
    omega

theorem utf8EncodeChar_eq (c : Char) :
    utf8EncodeChar c =
      .ofNat (mark c.utf8Size + c.toNat / 64 ^ (c.utf8Size - 1)) ::
        trail (c.utf8Size - 1) c.toNat := by
  have hscalar := scalar_toNat c
  simp only [utf8EncodeChar, Char.toNat_val]
  obtain hsize | hsize | hsize | hsize := c.utf8Size_eq <;> rw [hsize] at hscalar ⊢
  · rw [scalar_one_iff] at hscalar
    rw [if_pos hscalar]
    simp [mark, trail]
  · rw [scalar_two_iff] at hscalar
    have hlead : c.toNat / 64 % 0x20 = c.toNat / 64 := by omega
    rw [if_neg (by omega), if_pos hscalar.2, hlead]
    simp [mark, trail, Nat.add_comm]
  · rw [scalar_three_iff] at hscalar
    have hlead : c.toNat / 4096 % 0x10 = c.toNat / 4096 := by omega
    rw [if_neg (by omega), if_neg (by omega), if_pos hscalar.2.1, hlead]
    simp [mark, trail, Nat.add_comm]
  · rw [scalar_four_iff] at hscalar
    have hlead : c.toNat / 262144 % 0x08 = c.toNat / 262144 := by omega
    rw [if_neg (by omega), if_neg (by omega), if_neg (by omega), hlead]
    simp [mark, trail, Nat.add_comm]

theorem eq_ofNat_iff (h : n < 256) : b = .ofNat n ↔ b.toNat = n := by
  rw [← UInt8.toNat_inj, UInt8.toNat_ofNat_of_lt' h]

theorem cons_eq_trail_iff {value : Nat} :
    n / 64 ^ (count + 1) = value ∧ b :: rest = trail (count + 1) n ↔
      (0x80 ≤ b.toNat ∧ b.toNat ≤ 0xBF) ∧ n / 64 ^ count = value * 64 + (b.toNat - 0x80) ∧
        rest = trail count n := by
  rw [trail, List.cons.injEq, eq_ofNat_iff (by omega), Nat.pow_succ, ← Nat.div_div_eq_div_mul,
    ← and_assoc, ← and_assoc]
  refine and_congr_left fun _ => ?_
  omega

theorem first_byte_cases {first : Nat}
    (h : first = mark c.utf8Size + c.toNat / 64 ^ (c.utf8Size - 1)) :
    c.utf8Size = 1 ∧ first = c.toNat ∧ first < 0x80 ∨
      c.utf8Size = 2 ∧ 0xC2 ≤ first ∧ first < 0xE0 ∨
      c.utf8Size = 3 ∧ 0xE0 ≤ first ∧ first < 0xF0 ∨
      c.utf8Size = 4 ∧ 0xF0 ≤ first ∧ first < 0xF5 := by
  have hscalar := scalar_toNat c
  obtain hsize | hsize | hsize | hsize := c.utf8Size_eq
  all_goals
    rw [hsize] at h hscalar ⊢
    simp only [mark, Nat.reducePow, Nat.reduceSub, scalar_one_iff, scalar_two_iff, scalar_three_iff,
      scalar_four_iff] at h hscalar
    omega

theorem first_cons_iff :
    utf8EncodeChar c = b :: rest ↔ b.toNat = mark c.utf8Size + c.toNat / 64 ^ (c.utf8Size - 1) ∧
      rest = trail (c.utf8Size - 1) c.toNat := by
  have hcases := first_byte_cases (c := c) rfl
  rw [utf8EncodeChar_eq, eq_comm, List.cons.injEq, eq_ofNat_iff (by omega)]

theorem utf8EncodeChar_ofNat (hb : b.toNat < 0x80) : utf8EncodeChar (Char.ofNat b.toNat) = [b] := by
  have hscalar : Scalar 1 b.toNat := ⟨.inl (by omega), if_pos (by omega)⟩
  rw [first_cons_iff, hscalar.utf8Size_ofNat, hscalar.toNat_ofNat]
  simp [mark, trail]

/-- Bytes that a character starts with. -/
def Begins (bytes : List UInt8) : Prop := ∃ c, bytes <+: utf8EncodeChar c

theorem not_begins_singleton (hb : 0x80 ≤ b.toNat ∧ b.toNat < 0xC2 ∨ 0xF5 ≤ b.toNat) :
    ¬Begins [b] := by
  rintro ⟨c, rest, hc⟩
  have hcases := first_byte_cases (first_cons_iff.mp hc.symm).1
  omega

/-- No character starts with another one. -/
theorem utf8EncodeChar_append_inj {rest' : List UInt8}
    (h : utf8EncodeChar c ++ rest = utf8EncodeChar d ++ rest') : c = d ∧ rest = rest' := by
  have hdecode (c : Char) (rest : List UInt8) :
      (utf8EncodeChar c ++ rest).toByteArray.utf8DecodeChar? 0 = some c := by
    rw [List.toByteArray_append]
    exact ByteArray.utf8DecodeChar?_utf8EncodeChar_append
  have hc := hdecode c rest
  rw [h, hdecode] at hc
  obtain rfl : d = c := Option.some.inj hc
  exact ⟨rfl, List.append_cancel_left h⟩

theorem eq_of_starts (h : utf8EncodeChar c <+: utf8EncodeChar d) : c = d := by
  obtain ⟨rest, hrest⟩ := h
  have hsame : utf8EncodeChar c ++ rest = utf8EncodeChar d ++ [] := by rw [hrest, List.append_nil]
  exact (utf8EncodeChar_append_inj hsame).1

/-- Bytes that no character can be read from: as many as one starts with, or else the first
alone. -/
structure Stray (piece rest : List UInt8) : Prop where
  ne_nil : piece ≠ []
  unreadable : ∀ c, ¬utf8EncodeChar c <+: piece ++ rest
  begins : piece.length = 1 ∨ Begins piece
  longest :
    ∀ longer, longer <+: piece ++ rest → Begins longer → longer.length ≤ piece.length

theorem stray_of_stop (hne : piece ≠ []) (hunreadable : ∀ c, ¬utf8EncodeChar c <+: piece)
    (hbegins : piece.length = 1 ∨ Begins piece)
    (hstop : ∀ b, [b] <+: rest → ¬Begins (piece ++ [b])) : Stray piece rest := by
  -- What is longer goes on with the next byte.
  have hlongest (longer : List UInt8) (hlonger : longer <+: piece ++ rest) (h : Begins longer) :
      longer <+: piece := by
    rcases List.prefix_or_prefix_of_prefix hlonger (List.prefix_append piece rest) with hshort |
      ⟨more, rfl⟩
    · exact hshort
    cases more with
    | nil => simp
    | cons b more =>
      have hb : [b] <+: b :: more := ⟨more, rfl⟩
      have hrest := (List.prefix_append_right_inj piece).mp hlonger
      have hbegins : Begins (piece ++ [b]) :=
        h.imp fun _ => ((List.prefix_append_right_inj piece).mpr hb).trans
      exact absurd hbegins (hstop b (hb.trans hrest))
  refine ⟨hne, fun c hc => ?_, hbegins,
    fun longer hlonger h => (hlongest longer hlonger h).length_le⟩
  exact hunreadable c (hlongest _ hc ⟨c, List.prefix_rfl⟩)

theorem Stray.unique {piece' rest' : List UInt8} (h : Stray piece rest) (h' : Stray piece' rest')
    (heq : piece ++ rest = piece' ++ rest') : piece = piece' ∧ rest = rest' := by
  have hle {piece piece' rest rest' : List UInt8} (h : Stray piece rest) (h' : Stray piece' rest')
      (heq : piece ++ rest = piece' ++ rest') : piece.length ≤ piece'.length := by
    rcases h.begins with hone | hbegins
    · rw [hone]
      exact List.length_pos_iff.mpr h'.ne_nil
    · exact h'.longest piece ⟨rest, heq⟩ hbegins
  exact List.append_inj heq (Nat.le_antisymm (hle h h' heq) (hle h' h heq.symm))

theorem stray_singleton (hb : ¬Begins [b]) (rest : List UInt8) : Stray [b] rest := by
  refine stray_of_stop (by simp) (fun c hc => hb ⟨c, ?_⟩) (.inl rfl) fun _ _ hbegins => hb ?_
  · have hlength := hc.length_le
    have hpos := c.utf8Size_pos
    rw [String.length_utf8EncodeChar, List.length_singleton] at hlength
    have hwhole : utf8EncodeChar c = [b] := hc.eq_of_length (by simp; omega)
    exact ⟨[], by rw [hwhole, List.append_nil]⟩
  · exact hbegins.imp fun _ => (List.prefix_append [b] _).trans

end Fluxion.Utf8
