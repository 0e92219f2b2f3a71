import Fluxion.Text.Utf8
import Fluxion.Proofs.Text.Encoding

namespace Fluxion.Utf8

open String (utf8EncodeChar)

variable {bytes front rest : List UInt8} {b : UInt8} {c : Char}

variable {value left low high : Nat}

/-- What is known inside of a character: the value is that of the bytes at its front, the next byte
goes on with a character if it lies in the range, and then `left` others are missing. -/
structure Tracks (front : List UInt8) (value left low high : Nat) : Prop where
  ne_nil : front ≠ []
  low_le_high : low ≤ high
  spells_iff : ∀ c rest, utf8EncodeChar c = front ++ rest ↔
    c.utf8Size = front.length + (left + 1) ∧ c.toNat / 64 ^ (left + 1) = value ∧
      rest = trail (left + 1) c.toNat
  next_iff : ∀ n, low ≤ n ∧ n ≤ high ↔ (0x80 ≤ n ∧ n ≤ 0xBF) ∧
    Scalar (front.length + (left + 1)) ((value * 64 + (n - 0x80)) * 64 ^ left)

namespace Tracks

theorem spells_cons_iff (h : Tracks front value left low high) :
    utf8EncodeChar c = front ++ b :: rest ↔ c.utf8Size = front.length + (left + 1) ∧
      (0x80 ≤ b.toNat ∧ b.toNat ≤ 0xBF) ∧
      c.toNat / 64 ^ left = value * 64 + (b.toNat - 0x80) ∧ rest = trail left c.toNat := by
  rw [h.spells_iff, cons_eq_trail_iff]

theorem length_pos (h : Tracks front value left low high) : 0 < front.length :=
  List.length_pos_iff.mpr h.ne_nil

/-- A byte in the range goes on with a character. -/
theorem spells_next (h : Tracks front value left low high)
    (hb : low ≤ b.toNat ∧ b.toNat ≤ high) :
    let n := (value * 64 + (b.toNat - 0x80)) * 64 ^ left
    utf8EncodeChar (Char.ofNat n) = front ++ b :: trail left n := by
  intro n
  obtain ⟨hrange, hscalar⟩ := (h.next_iff b.toNat).mp hb
  refine h.spells_cons_iff.mpr ⟨hscalar.utf8Size_ofNat, hrange, ?_, ?_⟩
  · rw [hscalar.toNat_ofNat]
    exact Nat.mul_div_cancel _ (Nat.pow_pos (by decide))
  · rw [hscalar.toNat_ofNat]

theorem begins_concat_iff (h : Tracks front value left low high) :
    Begins (front ++ [b]) ↔ low ≤ b.toNat ∧ b.toNat ≤ high := by
  constructor
  · rintro ⟨c, rest, hc⟩
    rw [List.append_assoc] at hc
    obtain ⟨hsize, hrange, hvalue, -⟩ := h.spells_cons_iff.mp hc.symm
    have hlength := h.length_pos
    refine (h.next_iff _).mpr ⟨hrange, (hsize ▸ scalar_toNat c).congr left (by omega) ?_⟩
    rw [hvalue]
    exact Nat.mul_div_cancel _ (Nat.pow_pos (by decide))
  · intro hb
    exact ⟨_, _, (List.append_assoc ..).trans (h.spells_next hb).symm⟩

theorem next (h : Tracks front value (left + 1) low high)
    (hb : low ≤ b.toNat ∧ b.toNat ≤ high) :
    Tracks (front ++ [b]) (value * 64 + (b.toNat - 0x80)) left 0x80 0xBF := by
  obtain ⟨hrange, hscalar⟩ := (h.next_iff b.toNat).mp hb
  have hlength := h.length_pos
  have hsize : (front ++ [b]).length + (left + 1) = front.length + (left + 1 + 1) := by simp; omega
  refine ⟨by simp, by decide, fun c rest => ?_, fun n => ?_⟩
  · rw [List.append_assoc, List.singleton_append, h.spells_cons_iff, hsize]
    exact and_congr_right fun _ => and_iff_right hrange
  · rw [hsize, iff_self_and]
    intro hn
    refine hscalar.congr (left + 1) (by omega) ?_
    have hsame : ((value * 64 + (b.toNat - 0x80)) * 64 + (n - 0x80)) / 64 =
        value * 64 + (b.toNat - 0x80) := by
      omega
    rw [Nat.pow_succ', Nat.mul_div_mul_right _ _ (Nat.pow_pos (by decide)), hsame,
      ← Nat.pow_succ', Nat.mul_div_cancel _ (Nat.pow_pos (by decide))]

theorem exists_char (h : Tracks front value left low high) :
    ∃ d, front <+: utf8EncodeChar d ∧ front.length < d.utf8Size := by
  have hrange : low ≤ (UInt8.ofNat low).toNat ∧ (UInt8.ofNat low).toNat ≤ high := by
    have hlow := ((h.next_iff low).mp ⟨Nat.le_refl _, h.low_le_high⟩).1
    have hlt : low < 256 := by omega
    rw [UInt8.toNat_ofNat_of_lt' hlt]
    exact ⟨Nat.le_refl _, h.low_le_high⟩
  obtain ⟨d, hd⟩ := h.begins_concat_iff.mpr hrange
  have hlength := hd.length_le
  rw [List.length_append, String.length_utf8EncodeChar] at hlength
  exact ⟨d, (List.prefix_append ..).trans hd, hlength⟩

theorem stray (h : Tracks front value left low high)
    (hstop : ∀ b, [b] <+: rest → ¬Begins (front ++ [b])) : Stray front rest := by
  obtain ⟨d, hd, hshort⟩ := h.exists_char
  refine stray_of_stop h.ne_nil (fun c hc => ?_) (.inr ⟨d, hd⟩) hstop
  obtain rfl := eq_of_starts (hc.trans hd)
  have hlength := hc.length_le
  rw [String.length_utf8EncodeChar] at hlength
  omega

end Tracks

/-- A first byte of several tells how many there are and has the leading digit. -/
theorem Tracks.of_first {first : Nat} (hleft : left ≤ 2) (hb : b.toNat = mark (left + 2) + first)
    (hfirst : first < 2 ^ (5 - left)) (hrange : low ≤ high)
    (hnext : ∀ n, low ≤ n ∧ n ≤ high ↔
      (0x80 ≤ n ∧ n ≤ 0xBF) ∧ Scalar (left + 2) ((first * 64 + (n - 0x80)) * 64 ^ left)) :
    Tracks [b] first left low high := by
  refine ⟨by simp, hrange, fun c rest => ?_, fun n => ?_⟩
  · rw [List.singleton_append, first_cons_iff, List.length_singleton, Nat.add_comm 1]
    constructor
    · rintro ⟨hlead, rfl⟩
      have hcases := first_byte_cases hlead
      have hsize : c.utf8Size = left + 1 + 1 := by
        obtain rfl | rfl | rfl : left = 0 ∨ left = 1 ∨ left = 2 := by omega
        all_goals
          simp only [mark, Nat.reduceAdd, Nat.reducePow, Nat.reduceSub] at hb hfirst
          omega
      rw [hsize, Nat.add_sub_cancel] at hlead ⊢
      exact ⟨rfl, Nat.add_left_cancel (hlead.symm.trans hb), rfl⟩
    · rintro ⟨hsize, rfl, rfl⟩
      rw [hsize, Nat.add_sub_cancel]
      exact ⟨hb, rfl⟩
  · rw [hnext, List.length_singleton, Nat.add_comm 1]

/-- A byte between two characters is one, starts none, or starts one of several bytes. -/
theorem lead_cases (b : UInt8) :
    lead b.toNat = (.between, [.char (Char.ofNat b.toNat)]) ∧
      utf8EncodeChar (Char.ofNat b.toNat) = [b] ∨
      lead b.toNat = (.between, [.illFormed]) ∧ ¬Begins [b] ∨
      ∃ value left low high, lead b.toNat = (.inside value (left + 1) low high, []) ∧
        Tracks [b] value left low high := by
  have hlt := b.toNat_lt
  fun_cases lead b.toNat with
  | case1 h => exact .inl ⟨rfl, utf8EncodeChar_ofNat h⟩
  | case2 => exact .inr (.inl ⟨rfl, not_begins_singleton (by omega)⟩)
  | case3 =>
    refine .inr (.inr ⟨_, 0, _, _, rfl, ?_⟩)
    refine .of_first (by decide) (by simp [mark]; omega) (by omega) (by decide) fun n => ?_
    rw [scalar_two_iff]
    omega
  | case4 | case5 | case6 =>
    refine .inr (.inr ⟨_, 1, _, _, rfl, ?_⟩)
    refine .of_first (by decide) (by simp [mark]; omega) (by omega) (by decide) fun n => ?_
    rw [scalar_three_iff]
    omega
  | case7 | case8 | case9 =>
    refine .inr (.inr ⟨_, 2, _, _, rfl, ?_⟩)
    refine .of_first (by decide) (by simp [mark]; omega) (by omega) (by decide) fun n => ?_
    rw [scalar_four_iff]
    omega
  | case10 => exact .inr (.inl ⟨rfl, not_begins_singleton (by omega)⟩)

/-- The first piece of some bytes, and the bytes behind it. -/
inductive First : List UInt8 → Piece → List UInt8 → Prop
  | char (c : Char) (rest : List UInt8) : First (utf8EncodeChar c ++ rest) (.char c) rest
  | stray {piece rest : List UInt8} (h : Stray piece rest) : First (piece ++ rest) .illFormed rest

/-- However the piece ends that the state is inside of, it starts with the bytes at the front. -/
theorem pieces_inside (h : Tracks front value left low high) (bytes : List UInt8) :
    ∃ p rest, First (front ++ bytes) p rest ∧
      piecesFrom (.inside value (left + 1) low high) bytes = p :: pieces rest := by
  induction bytes generalizing front value left low high with
  | nil => exact ⟨_, _, .stray (h.stray (by simp)), rfl⟩
  | cons b bytes ih =>
    by_cases hb : low ≤ b.toNat ∧ b.toNat ≤ high
    · cases left with
      | zero =>
        have hchar := h.spells_next hb
        rw [Nat.pow_zero, Nat.mul_one] at hchar
        refine ⟨.char (Char.ofNat (value * 64 + (b.toNat - 0x80))), bytes, ?_, ?_⟩
        · rw [List.append_cons]
          exact hchar ▸ .char _ _
        · simp [piecesFrom, step, hb, pieces]
      | succ left =>
        obtain ⟨p, rest, hfirst, hpieces⟩ := ih (h.next hb)
        rw [List.append_assoc] at hfirst
        exact ⟨p, rest, hfirst, by simpa [piecesFrom, step, hb] using hpieces⟩
    · refine ⟨.illFormed, b :: bytes, .stray (h.stray ?_),
        by simp [piecesFrom, step, hb, pieces]⟩
      intro b' hb'
      obtain ⟨rfl, -⟩ := List.cons_prefix_cons.mp hb'
      exact fun hbegins => hb (h.begins_concat_iff.mp hbegins)

/-- Bytes are cut into their first piece and the pieces of what is behind it. -/
theorem pieces_cons (b : UInt8) (bytes : List UInt8) :
    ∃ p rest, First (b :: bytes) p rest ∧ pieces (b :: bytes) = p :: pieces rest := by
  rcases lead_cases b with ⟨hlead, hchar⟩ | ⟨hlead, hnone⟩ |
    ⟨value, left, low, high, hlead, htracks⟩
  · refine ⟨_, bytes, ?_, by simp [pieces, piecesFrom, step, hlead]; rfl⟩
    have hfirst := First.char (Char.ofNat b.toNat) bytes
    rw [hchar] at hfirst
    exact hfirst
  · exact ⟨_, _, .stray (stray_singleton hnone bytes),
      by simp [pieces, piecesFrom, step, hlead]⟩
  · obtain ⟨p, rest, hfirst, hpieces⟩ := pieces_inside htracks bytes
    exact ⟨p, rest, hfirst, by simpa [pieces, piecesFrom, step, hlead] using hpieces⟩

namespace First

variable {p q : Piece} {rest' : List UInt8}

theorem unique (h : First bytes p rest) (h' : First bytes q rest') : p = q ∧ rest = rest' := by
  generalize hbytes : bytes = bytes' at h'
  cases h with
  | char c rest =>
    cases h' with
    | char d rest' =>
      obtain ⟨rfl, rfl⟩ := utf8EncodeChar_append_inj hbytes
      exact ⟨rfl, rfl⟩
    | stray h' => exact absurd ⟨rest, hbytes⟩ (h'.unreadable c)
  | stray h =>
    cases h' with
    | char d rest' => exact absurd ⟨rest', hbytes.symm⟩ (h.unreadable d)
    | stray h' => exact ⟨rfl, (h.unique h' hbytes).2⟩

theorem length_lt (h : First bytes p rest) : rest.length < bytes.length := by
  cases h with
  | char c rest =>
    have hpos := c.utf8Size_pos
    simp
    omega
  | stray h =>
    have hpos := List.length_pos_iff.mpr h.ne_nil
    simp
    omega

theorem pieces_eq (h : First bytes p rest) : pieces bytes = p :: pieces rest := by
  cases bytes with
  | nil => exact absurd h.length_lt (Nat.not_lt_zero _)
  | cons b bytes =>
    obtain ⟨q, rest', h', hpieces⟩ := pieces_cons b bytes
    obtain ⟨rfl, rfl⟩ := h.unique h'
    exact hpieces

theorem decode?_eq (h : First bytes p rest) :
    decode? bytes = p.char?.bind fun c => (decode? rest).map (c :: ·) := by
  rw [decode?, h.pieces_eq, List.mapM_cons]
  simp only [Option.map_eq_bind]
  rfl

theorem decodeLossy_eq (h : First bytes p rest) :
    decodeLossy bytes = p.shown :: decodeLossy rest := by
  rw [decodeLossy, h.pieces_eq, List.map_cons]
  rfl

end First

/-- Any bytes are none, or a first piece and what is behind it. -/
theorem first_induction {motive : List UInt8 → Prop} (nil : motive [])
    (first : ∀ bytes p rest, First bytes p rest → motive rest → motive bytes)
    (bytes : List UInt8) : motive bytes := by
  induction h : bytes.length using Nat.strongRecOn generalizing bytes with
  | ind n ih =>
    subst h
    cases bytes with
    | nil => exact nil
    | cons b bytes =>
      obtain ⟨p, rest, hfirst, -⟩ := pieces_cons b bytes
      exact first _ p rest hfirst (ih rest.length hfirst.length_lt rest rfl)

variable {source shown text : List Char}

/-- The bytes of a text. -/
def encode (source : List Char) : List UInt8 := source.flatMap utf8EncodeChar

@[simp] theorem encode_nil : encode [] = [] := rfl

@[simp] theorem encode_cons (c : Char) (source : List Char) :
    encode (c :: source) = utf8EncodeChar c ++ encode source := rfl

theorem encode_append (source text : List Char) :
    encode (source ++ text) = encode source ++ encode text :=
  List.flatMap_append

/-- Bytes that spell a text are decoded to it, and no others. -/
theorem decode?_eq_some_iff : decode? bytes = some source ↔ bytes = encode source := by
  constructor
  · intro h
    induction bytes using first_induction generalizing source with
    | nil =>
      obtain rfl : [] = source := Option.some.inj h
      rfl
    | first bytes p rest hfirst ih =>
      rw [hfirst.decode?_eq] at h
      cases hfirst with
      | char c rest =>
        obtain ⟨source, hrest, rfl⟩ := Option.map_eq_some_iff.mp h
        rw [encode_cons, ← ih hrest]
      | stray hstray => cases h
  · rintro rfl
    induction source with
    | nil => rfl
    | cons c source ih =>
      rw [encode_cons, (First.char c _).decode?_eq, ih]
      rfl

theorem encode_injective (h : encode source = encode text) : source = text :=
  Option.some.inj ((decode?_eq_some_iff.mpr rfl).symm.trans (decode?_eq_some_iff.mpr h))

/-- What the bytes show, each stray piece as U+FFFD. -/
inductive Mended : List UInt8 → List Char → Prop
  | nil : Mended [] []
  | char {rest : List UInt8} {shown : List Char} (c : Char) (h : Mended rest shown) :
    Mended (utf8EncodeChar c ++ rest) (c :: shown)
  | stray {piece rest : List UInt8} {shown : List Char} (hpiece : Stray piece rest)
      (h : Mended rest shown) :
    Mended (piece ++ rest) ('\uFFFD' :: shown)

theorem mended_iff : Mended bytes shown ↔ shown = decodeLossy bytes := by
  constructor
  · intro h
    induction h with
    | nil => rfl
    | char c _ ih =>
      rw [(First.char c _).decodeLossy_eq, ← ih]
      rfl
    | stray hpiece _ ih =>
      rw [(First.stray hpiece).decodeLossy_eq, ← ih]
      rfl
  · rintro rfl
    induction bytes using first_induction with
    | nil => exact .nil
    | first bytes p rest hfirst ih =>
      rw [hfirst.decodeLossy_eq]
      cases hfirst with
      | char c rest => exact .char c ih
      | stray hpiece => exact .stray hpiece ih

/-- The longest text that the bytes start with, and the bytes behind it. -/
structure Front (bytes : List UInt8) (source : List Char) (rest : List UInt8) : Prop where
  split : bytes = encode source ++ rest
  longest : ∀ text, encode text <+: bytes → (encode text).length ≤ (encode source).length

namespace Front

theorem cons (h : Front bytes source rest) (c : Char) :
    Front (utf8EncodeChar c ++ bytes) (c :: source) rest where
  split := by rw [encode_cons, List.append_assoc, ← h.split]
  longest text htext := by
    cases text with
    | nil => exact Nat.zero_le _
    | cons d text =>
      obtain ⟨more, hmore⟩ := htext
      rw [encode_cons, List.append_assoc] at hmore
      obtain ⟨rfl, htext⟩ := utf8EncodeChar_append_inj hmore
      have hle := h.longest text ⟨more, htext⟩
      simp only [encode_cons, List.length_append]
      omega

theorem unique {rest' : List UInt8} (h : Front bytes source rest) (h' : Front bytes text rest') :
    source = text ∧ rest = rest' := by
  have hsplit := h.split.symm.trans h'.split
  have hlength : (encode source).length = (encode text).length :=
    Nat.le_antisymm (h'.longest source ⟨rest, h.split.symm⟩)
      (h.longest text ⟨rest', h'.split.symm⟩)
  obtain ⟨hsource, hrest⟩ := List.append_inj hsplit hlength
  exact ⟨encode_injective hsource, hrest⟩

end Front

theorem exists_front (bytes : List UInt8) : ∃ source rest, Front bytes source rest := by
  induction bytes using first_induction with
  | nil => exact ⟨[], [], rfl, fun text htext => htext.length_le⟩
  | first bytes p rest hfirst ih =>
    cases hfirst with
    | char c rest =>
      obtain ⟨source, behind, h⟩ := ih
      exact ⟨_, _, h.cons c⟩
    | stray hpiece =>
      refine ⟨[], _, rfl, fun text htext => ?_⟩
      cases text with
      | nil => exact Nat.le_refl _
      | cons c text => exact absurd ((List.prefix_append ..).trans htext) (hpiece.unreadable c)

theorem pieces_encode_append (source : List Char) (rest : List UInt8) :
    pieces (encode source ++ rest) = source.map Piece.char ++ pieces rest := by
  induction source with
  | nil => rfl
  | cons c source ih =>
    rw [encode_cons, List.append_assoc, (First.char c _).pieces_eq, ih]
    rfl

theorem decodeLossy_encode_append (source : List Char) (rest : List UInt8) :
    decodeLossy (encode source ++ rest) = source ++ decodeLossy rest := by
  rw [decodeLossy, pieces_encode_append, List.map_append, List.map_map]
  exact congrArg (· ++ decodeLossy rest) (List.map_id source)

theorem soundLength_encode_append (source : List Char) (rest : List UInt8) :
    soundLength (encode source ++ rest) = source.length + soundLength rest := by
  have hsound : ∀ p ∈ source.map Piece.char, p.char?.isSome := by simp [Piece.char?]
  rw [soundLength, pieces_encode_append, List.takeWhile_append_of_pos hsound, List.length_append,
    List.length_map]
  rfl

/-- Behind the longest text there is nothing, or a piece that cannot be read. -/
theorem Front.rest_cases (h : Front bytes source rest) :
    rest = [] ∨ ∃ behind, First rest .illFormed behind := by
  cases hrest : rest with
  | nil => exact .inl rfl
  | cons b rest' =>
    obtain ⟨p, behind, hfirst, -⟩ := pieces_cons b rest'
    rw [← hrest] at hfirst ⊢
    cases hfirst with
    | char c behind =>
      have hlonger := h.longest (source ++ [c]) ⟨behind, by simp [h.split, encode_append]⟩
      have hpos := c.utf8Size_pos
      simp [encode_append] at hlonger
      omega
    | stray hpiece => exact .inr ⟨_, .stray hpiece⟩

theorem Front.soundLength_eq (h : Front bytes source rest) : soundLength bytes = source.length := by
  rw [h.split, soundLength_encode_append]
  rcases h.rest_cases with rfl | ⟨behind, hfirst⟩
  · rfl
  · rw [soundLength, hfirst.pieces_eq]
    rfl

theorem Front.shown_eq_cons (h : Front bytes source rest) (hrest : rest ≠ [])
    (hshown : Mended rest shown) : ∃ more, shown = '\uFFFD' :: more := by
  obtain ⟨behind, hfirst⟩ := h.rest_cases.resolve_left hrest
  exact ⟨_, (mended_iff.mp hshown).trans hfirst.decodeLossy_eq⟩

end Fluxion.Utf8
