import Mathlib.Algebra.Group.Nat.Defs
import Mathlib.Data.List.Nodup
import Fluxion.Proofs.Reading.SignFirst
import Fluxion.Proofs.Reading.SignLast

namespace Fluxion

namespace Excerpt

variable {source : List Char} {position width : Nat}

theorem around_before (source : List Char) (position width : Nat) :
    (around source position width).before =
      String.ofList (source.extract (position - 1 - width) (position - 1)) := by
  rw [around, List.extract, List.drop_take]

theorem around_after (source : List Char) (position width : Nat) :
    (around source position width).after =
      String.ofList (source.extract (position - 1) (min source.length (position - 1 + width))) := by
  have hsame : (source.drop (position - 1)).take width =
      (source.drop (position - 1)).take
        (min source.length (position - 1 + width) - (position - 1)) := by
    rw [List.take_eq_take_iff, List.length_drop]
    omega
  rw [around, List.extract, hsame]

/-- Two pieces of a text that meet are one. -/
theorem extract_append_extract {a b c : Nat} (hab : a ≤ b) (hbc : b ≤ c) :
    source.extract a b ++ source.extract b c = source.extract a c := by
  have hrest : source.drop b = (source.drop a).drop (b - a) := by
    rw [List.drop_drop, Nat.add_sub_cancel' hab]
  have hlength : c - a = b - a + (c - b) := by omega
  rw [List.extract, List.extract, List.extract, hrest, hlength, List.take_add]

theorem around_append (hposition : position ≤ source.length + 1) :
    (around source position width).before ++ (around source position width).after = String.ofList
      (source.extract (position - 1 - width) (min source.length (position - 1 + width))) := by
  rw [around_before, around_after, ← String.ofList_append,
    extract_append_extract (Nat.sub_le _ _) (by omega)]

/-- A difference of sizes that stops at zero. -/
def monus (a b : UInt64) : UInt64 := if b ≤ a then a - b else 0

theorem toNat_monus (a b : UInt64) : (monus a b).toNat = a.toNat - b.toNat := by
  unfold monus
  split
  · rename_i hle
    exact UInt64.toNat_sub_of_le _ _ hle
  · rename_i hlt
    have hlt := UInt64.lt_iff_toNat_lt.mp (UInt64.not_le.mp hlt)
    simp
    omega

/-- An excerpt worked out in sizes of 64 bits: some characters are skipped, and some taken. -/
def aroundSizes (source : List Char) (position width : UInt64) : Excerpt :=
  let start := monus position 1
  let first := monus start width
  ⟨String.ofList ((source.drop first.toNat).take (start - first).toNat),
    String.ofList ((source.drop start.toNat).take width.toNat)⟩

/-- No size overflows. -/
theorem aroundSizes_eq (source : List Char) (position width : UInt64) :
    aroundSizes source position width = around source position.toNat width.toNat := by
  have hle : monus (monus position 1) width ≤ monus position 1 := by
    rw [UInt64.le_iff_toNat_le, toNat_monus (monus position 1) width]
    exact Nat.sub_le _ _
  simp only [aroundSizes, around, UInt64.toNat_sub_of_le _ _ hle, toNat_monus, List.drop_take]
  rfl

end Excerpt

namespace ParseCause

/-- The token that a cause quotes. -/
def token? : ParseCause → Option String
  | unexpected token | unclosed token | trailing token | signExpected token => some token
  | _ => none

/-- If the cause quotes a token, then this one. -/
def Quotes (cause : ParseCause) (token : String) : Prop :=
  ∀ quoted, cause.token? = some quoted → quoted = token

theorem quotes_of_some {cause : ParseCause} {token : String} (h : cause.token? = some token) :
    cause.Quotes token := by
  intro quoted hquoted
  exact Option.some.inj (hquoted.symm.trans h)

theorem quotes_of_none {cause : ParseCause} (h : cause.token? = none) (token : String) :
    cause.Quotes token := by
  intro quoted hquoted
  rw [h] at hquoted
  cases hquoted

end ParseCause

namespace Reading

/-- Where a fault can stand, and what it then quotes. -/
inductive Points (endPosition : Nat) (ts : List Token) : Fault → Prop
  | atEnd {cause : ParseCause} : cause.Quotes "" → Points endPosition ts ⟨cause, endPosition⟩
  | atToken {t : Token} {cause : ParseCause} :
      t ∈ ts → cause.Quotes t.text → Points endPosition ts ⟨cause, t.position⟩

variable {t : Token} {ts us : List Token} {cause : ParseCause} {f : Fault} {endPosition : Nat}

theorem Points.mono (hf : Points endPosition ts f) (hts : ∀ t ∈ ts, t ∈ us) :
    Points endPosition us f := by
  cases hf with
  | atEnd hq => exact .atEnd hq
  | atToken ht hq => exact .atToken (hts _ ht) hq

theorem start_quotes (h : start t = .error cause) : cause.Quotes t.text := by
  obtain ⟨rfl, -⟩ := start_eq_error h
  exact ParseCause.quotes_of_some rfl

namespace Grammar

variable {Group Held : Type} {g : Grammar Group Held} {next : Option Token}
  {p : Progress Group Held} {limit : Option Nat}

/-- A grammar that quotes the token it refuses, and nothing at the end. -/
structure Truthful (g : Grammar Group Held) : Prop where
  advance : ∀ {group : Group} {t : Token} {next : Option Token} {cause : ParseCause},
    g.advance group t next = .error cause → cause.Quotes t.text
  ended : ∀ group : Group, (g.ended group).Quotes ""

theorem Truthful.step (hg : g.Truthful) (h : g.step p t next = .error cause) :
    cause.Quotes t.text := by
  obtain hstart | ⟨group, outer, -, hmove⟩ | ⟨e, -, rfl⟩ := step_eq_error h
  · exact start_quotes hstart
  · exact hg.advance hmove
  · exact ParseCause.quotes_of_some rfl

theorem Truthful.finish (hg : g.Truthful) (h : g.finish p = .error cause) : cause.Quotes "" := by
  cases p with
  | awaiting =>
    obtain rfl := Except.error.inj h
    exact ParseCause.quotes_of_none rfl _
  | inside group outer =>
    obtain rfl := Except.error.inj h
    exact hg.ended group
  | finished e => cases h

/-- Wherever a reading fails, also for its depth, it points at one of its tokens or behind them. -/
theorem Truthful.points (hg : g.Truthful) (h : g.run limit endPosition p ts = .error f) :
    Points endPosition ts f := by
  induction ts generalizing p with
  | nil =>
    simp only [run] at h
    split at h
    · obtain rfl := Except.error.inj h
      exact .atEnd (ParseCause.quotes_of_none rfl _)
    · obtain ⟨cause, hcause, rfl⟩ := except_mapError_eq_error.mp h
      exact .atEnd (hg.finish hcause)
  | cons t ts ih =>
    simp only [run] at h
    split at h
    · obtain rfl := Except.error.inj h
      exact .atToken List.mem_cons_self (ParseCause.quotes_of_none rfl _)
    · split at h
      · rename_i hstep
        obtain rfl := Except.error.inj h
        exact .atToken List.mem_cons_self (hg.step hstep)
      · exact (ih h).mono fun u hu => List.mem_cons_of_mem t hu

end Grammar

namespace SignFirst

theorem Call.quotes_missing {c : Call} (h : c.missing? = some cause) (token : String) :
    cause.Quotes token := by
  obtain ⟨n, -, -, rfl⟩ := missing?_eq_some_iff.mp h
  exact ParseCause.quotes_of_none rfl token

theorem grammar_truthful : grammar.Truthful where
  advance {group t next cause} h := by
    cases group with
    | unnamed =>
      obtain rfl := advance_unnamed_eq_error h
      exact ParseCause.quotes_of_some rfl
    | call c =>
      obtain hstart | ⟨-, hmissing⟩ | ⟨-, rfl⟩ := advance_call_eq_error h
      · exact start_quotes hstart
      · exact Call.quotes_missing hmissing t.text
      · exact ParseCause.quotes_of_some rfl
  ended group := by
    cases group with
    | unnamed => exact ParseCause.quotes_of_some rfl
    | call c =>
      change (c.missing?.getD (.unclosed "")).Quotes ""
      cases hmissing : c.missing? with
      | none => exact ParseCause.quotes_of_some rfl
      | some cause => exact Call.quotes_missing hmissing ""

end SignFirst

namespace SignLast

theorem grammar_truthful : grammar.Truthful where
  advance {group t next cause} h := by
    cases group with
    | filling operands =>
      obtain hstart | ⟨-, -, rfl⟩ | ⟨op, expected, -, -, -, -, rfl⟩ :=
        advance_filling_eq_error h
      · exact start_quotes hstart
      · exact ParseCause.quotes_of_some rfl
      · exact ParseCause.quotes_of_none rfl _
    | complete e =>
      obtain ⟨-, rfl⟩ := advance_complete_eq_error h
      exact ParseCause.quotes_of_some rfl
  ended _ := ParseCause.quotes_of_some rfl

end SignLast

section

variable {source : List Char}

/-- No token stands behind its text. -/
theorem position_lt_of_mem_scan (ht : t ∈ Token.scan source) :
    1 ≤ t.position ∧ t.position < source.length + 1 := by
  have hpos := Token.position_scanFrom ht
  omega

theorem text_ne_empty (ht : t ∈ Token.scan source) : t.text ≠ "" := by
  have hproper := Token.proper_of_mem_scanFrom ht
  obtain ⟨l, p⟩ := t
  cases l with
  | opening => simp [Token.text, Lexeme.chars]
  | closing => simp [Token.text, Lexeme.chars]
  | word cs => simpa [Token.text, Lexeme.chars] using Token.IsWord.ne_nil hproper

/-- At most one token stands at a position. -/
theorem eq_of_position_eq {u : Token} (ht : t ∈ Token.scan source) (hu : u ∈ Token.scan source)
    (h : t.position = u.position) : t = u := by
  have hnodup : ((Token.scan source).map Token.position).Nodup :=
    List.pairwise_map.mpr ((Token.pairwise_scanFrom 1 source).imp Nat.ne_of_lt)
  exact List.inj_on_of_nodup_map hnodup ht hu h

theorem Points.bounds (hf : Points (source.length + 1) (Token.scan source) f) :
    1 ≤ f.position ∧ f.position ≤ source.length + 1 := by
  cases hf with
  | atEnd => exact ⟨Nat.le_add_left 1 _, Nat.le_refl _⟩
  | atToken ht =>
    obtain ⟨hone, hlt⟩ := position_lt_of_mem_scan ht
    exact ⟨hone, Nat.le_of_lt hlt⟩

theorem Points.stands (hf : Points (source.length + 1) (Token.scan source) f) :
    f.position = source.length + 1 ∨ ∃ t ∈ Token.scan source, t.position = f.position ∧
      t.lexeme.chars <+: source.drop (f.position - 1) := by
  cases hf with
  | atEnd => exact .inl rfl
  | @atToken t _ ht => exact .inr ⟨t, ht, rfl, Token.chars_prefix_drop ht⟩

theorem Points.quoted (hf : Points (source.length + 1) (Token.scan source) f) {token : String}
    (htoken : f.cause.token? = some token) : (token = "" ↔ f.position = source.length + 1) ∧
      ∀ t ∈ Token.scan source, t.position = f.position → token = t.text := by
  cases hf with
  | atEnd hq =>
    obtain rfl := hq token htoken
    refine ⟨by simp, fun t ht heq => ?_⟩
    have hlt := (position_lt_of_mem_scan ht).2
    simp only at heq
    omega
  | @atToken u _ hu hq =>
    obtain rfl := hq token htoken
    have hlt := (position_lt_of_mem_scan hu).2
    exact ⟨iff_of_false (text_ne_empty hu) (Nat.ne_of_lt hlt),
      fun t ht heq => by rw [eq_of_position_eq ht hu heq]⟩

end

end Reading

namespace Reader

open Reading in
theorem points_of_readChars {r : Reader} {source : List Char} {err : ParseError}
    (h : r.readChars source = .error err) :
    Points (source.length + 1) (Token.scan source) err.toFault ∧
      err.excerpt = Excerpt.around source err.position r.width := by
  obtain ⟨f, hread, rfl⟩ := except_mapError_eq_error.mp h
  refine ⟨?_, rfl⟩
  cases hform : r.form with
  | signFirst =>
    rw [hform] at hread
    exact SignFirst.grammar_truthful.points hread
  | signLast =>
    rw [hform] at hread
    exact SignLast.grammar_truthful.points hread

/-- An error stands at the first character of a token or right behind the text. The token it quotes
is the one that stands there, or nothing behind the text. Its excerpt is one piece of the text, cut
in front of that token and as wide on either side as the text allows, also in sizes of 64 bits. -/
theorem read_error_location (r : Reader) {text : String} {err : ParseError}
    (h : r.read text = .error err) :
    let source := text.toList
    let start := err.position - 1
    let last := min source.length (start + r.width)
    (1 ≤ err.position ∧ err.position ≤ source.length + 1) ∧
      (err.position = source.length + 1 ∨
        ∃ t ∈ Token.scan source, t.position = err.position ∧
          t.lexeme.chars <+: source.drop start) ∧
      (∀ token, err.cause.token? = some token →
        (token = "" ↔ err.position = source.length + 1) ∧
        ∀ t ∈ Token.scan source, t.position = err.position → token = t.text) ∧
      err.excerpt.before = String.ofList (source.extract (start - r.width) start) ∧
      err.excerpt.after = String.ofList (source.extract start last) ∧
      err.excerpt.before ++ err.excerpt.after =
        String.ofList (source.extract (start - r.width) last) ∧
      (err.position < 2 ^ 64 → r.width < 2 ^ 64 →
        err.excerpt = Excerpt.aroundSizes source (.ofNat err.position) (.ofNat r.width)) := by
  intro source start last
  obtain ⟨hpoints, hexcerpt⟩ := points_of_readChars h
  have hbounds := hpoints.bounds
  refine ⟨hbounds, hpoints.stands, fun token htoken => hpoints.quoted htoken, ?_⟩
  rw [hexcerpt]
  refine ⟨Excerpt.around_before .., Excerpt.around_after ..,
    Excerpt.around_append hbounds.2, ?_⟩
  intro hposition hwidth
  rw [Excerpt.aroundSizes_eq, UInt64.toNat_ofNat_of_lt' hposition, UInt64.toNat_ofNat_of_lt' hwidth]

/-- Characters of several bytes are counted as one each, and the
excerpt starts where the text does. -/
theorem read_error_location_unknown_word :
    let reader : Reader := ⟨.signLast, 3, some 5⟩
    let err : ParseError := ⟨⟨.unexpected "ππ", 4⟩, ⟨"(x ", "ππ "⟩⟩
    reader.read "(x ππ +)" = .error err ∧
      ((1 ≤ err.position ∧ err.position ≤ 9) ∧ ("ππ" = "" ↔ err.position = 9) ∧
        err.excerpt.before ++ err.excerpt.after = "(x ππ ") := by
  intro reader err
  have hread : reader.read "(x ππ +)" = .error err := by rfl
  obtain ⟨hbounds, -, hquoted, -, -, happend, -⟩ := read_error_location reader hread
  exact ⟨hread, hbounds, (hquoted "ππ" rfl).1, happend⟩

end Reader
end Fluxion
