import Fluxion.Proofs.Reading.Completion
import Fluxion.Proofs.Reading.Depth

namespace Fluxion

/-- Causes that only the inside of a group has. -/
def ParseCause.OfGroup : ParseCause → Prop
  | unclosed _ | signExpected _ | operandCount _ _ _ => True
  | _ => False

namespace Reading

variable {t : Token} {ts before after : List Token} {next : Option Token}
  {cause : ParseCause} {f : Fault} {limit : Option Nat} {endPosition : Nat} {source : List Char}
  {op : Operator} {e : Expr} {token : String}

/-- A sign of the vocabulary that takes this many operands, no more and no less. -/
def Takes (sign : String) (count : Nat) : Prop :=
  ∃ op, Operator.ofSign? sign = some op ∧ op.arity = .fixed count

/-- The token directly behind is a closing parenthesis. -/
def BeforeClosing (ts : List Token) (t : Token) : Prop :=
  ∃ u, [t, u] <:+: ts ∧ u.lexeme = .closing

/-- What an error of either notation certifies. An unexpected token is no operand, and where there
is too much text, what stands before the error is read by itself, however it is spaced. -/
def Certified (r : Reader) (source : List Char) (position : Nat) : ParseCause → Prop
  | .unexpected token => token ≠ "" ∧ token ≠ "(" ∧ ∀ l, ¬ Spells token.toList l
  | .trailing _ =>
    let before := (Token.scan source).filter (·.position < position)
    Token.scan (source.take (position - 1)) = before ∧
      ∃ e, ∀ text : String, Token.lexemes text.toList = before.map Token.lexeme →
        r.read text = .ok e
  | _ => True

/-- What an error certifies where signs come first. -/
def SignFirst.Certified (source : List Char) (position : Nat) : ParseCause → Prop
  | .operandCount sign expected got =>
    Takes sign expected ∧ got < expected ∧
      (position = source.length + 1 ∨ ⟨.closing, position⟩ ∈ Token.scan source)
  | .unclosed got => got ≠ ")"
  | _ => True

/-- What an error certifies where signs come last. -/
def SignLast.Certified (source : List Char) (position : Nat) : ParseCause → Prop
  | .unclosed got => got = "" ∧ position = source.length + 1
  | .signExpected token =>
    Operator.ofSign? token = none ∧
      ∃ t, t.position = position ∧ t.text = token ∧ BeforeClosing (Token.scan source) t
  | .operandCount sign expected got =>
    Takes sign expected ∧ expected ≠ got ∧
      ∃ t ∈ Token.scan source, t.position = position ∧ t.text = sign ∧
        (expected < got → BeforeClosing (Token.scan source) t)
  | _ => True

/-- Whenever the sign of a group has been taken, the next token is the parenthesis that closes
it. -/
def SignLast.ClosesGroups (source : List Char) : Prop :=
  ∀ before rest e outer, Token.scan source = before ++ rest →
    grammar.Feeds rest.head? .awaiting before (.inside (.complete e) outer) →
      ∃ u ∈ rest.head?, u.lexeme = .closing

theorem lexeme_of_text {l : Lexeme} (ht : t ∈ Token.scan source) (hl : Token.Proper l)
    (h : t.text = String.ofList l.chars) : t.lexeme = l := by
  have hsame := Token.lexemes_chars (Token.proper_of_mem_scanFrom ht)
  rw [String.ofList_injective h, Token.lexemes_chars hl] at hsame
  exact (List.singleton_inj.mp hsame).symm

theorem not_spells_of_unexpected (ht : t ∈ Token.scan source)
    (h : start t = .error (.unexpected token)) :
    token ≠ "" ∧ token ≠ "(" ∧ ∀ l, ¬ Spells token.toList l := by
  obtain ⟨hcause, hopening, hspells⟩ := start_eq_error h
  obtain rfl := ParseCause.unexpected.inj hcause
  refine ⟨text_ne_empty ht, fun htext => hopening (lexeme_of_text ht trivial htext),
    fun l => ?_⟩
  rw [Token.text, String.toList_ofList]
  exact hspells l

theorem ofSign?_text (t : Token) : Operator.ofSign? t.text = t.lexeme.sign? := by
  rw [Token.text]
  cases t.lexeme with
  | opening => decide +kernel
  | closing => decide +kernel
  | word chars => rfl

theorem takes_of_sign? {l : Lexeme} {count : Nat} (h : l.sign? = some op)
    (hop : op.arity = .fixed count) :
    Takes op.sign count := ⟨op, Operator.ofSign?_sign (mem_vocabulary_of_sign? h).1, hop⟩

namespace Grammar

variable {Group Held : Type} {g : Grammar Group Held} {p q : Progress Group Held}

/-- A grammar whose groups have causes of their own, other than those of an operand. -/
structure Discerning (g : Grammar Group Held) : Prop where
  advance : ∀ {group : Group} {t : Token} {next : Option Token} {cause : ParseCause},
    g.advance group t next = .error cause → start t = .error cause ∨ cause.OfGroup
  ended : ∀ group : Group, (g.ended group).OfGroup

/-- A reading fails in a group, at a token that the group refuses or because it is not closed. -/
inductive FailsInside (g : Grammar Group Held) (endPosition : Nat) (p : Progress Group Held) :
    List Token → Fault → Prop
  | atToken {before after : List Token} {t : Token} {group : Group} {outer : List Held}
      {cause : ParseCause} : g.Feeds (some t) p before (.inside group outer) →
      g.advance group t after.head? = .error cause →
      FailsInside g endPosition p (before ++ t :: after) ⟨cause, t.position⟩
  | atEnd {ts : List Token} {group : Group} {outer : List Held} :
      g.Feeds none p ts (.inside group outer) →
      FailsInside g endPosition p ts ⟨g.ended group, endPosition⟩

/-- A reading fails where an operand is due, in a group, or behind the
expression, if there is a token. -/
theorem Fails.cases (hf : g.Fails endPosition p ts f) :
    (∃ t ∈ ts, start t = .error f.cause) ∨ g.FailsInside endPosition p ts f ∨
    (∃ before t after e, ts = before ++ t :: after ∧ t.position = f.position ∧
      f.cause = .trailing t.text ∧ g.Feeds (some t) p before (.finished e)) ∨
      f.cause = .empty := by
  cases hf with
  | @atToken before after t q cause hfeeds hstep =>
    obtain hstart | ⟨group, outer, rfl, hadvance⟩ | ⟨e, rfl, rfl⟩ := step_eq_error hstep
    · exact .inl ⟨t, by simp, hstart⟩
    · exact .inr (.inl (.atToken hfeeds hadvance))
    · exact .inr (.inr (.inl ⟨before, t, after, e, rfl, rfl, rfl, hfeeds⟩))
  | @atEnd _ q _ hfeeds hfinish =>
    cases q with
    | awaiting =>
      obtain rfl := Except.error.inj hfinish
      exact .inr (.inr (.inr rfl))
    | inside group outer =>
      obtain rfl := Except.error.inj hfinish
      exact .inr (.inl (.atEnd hfeeds))
    | finished e => cases hfinish

theorem FailsInside.start_or_ofGroup (hg : g.Discerning) (hf : g.FailsInside endPosition p ts f) :
    (∃ t ∈ ts, start t = .error f.cause) ∨ f.cause.OfGroup := by
  cases hf with
  | @atToken before after t group outer cause _ hadvance =>
    exact (hg.advance hadvance).imp (fun hstart => ⟨t, by simp, hstart⟩) id
  | @atEnd _ group _ _ => exact .inr (hg.ended group)

theorem Fails.start_of_unexpected (hg : g.Discerning) (hf : g.Fails endPosition p ts f)
    (hcause : f.cause = .unexpected token) : ∃ t ∈ ts, start t = .error f.cause := by
  obtain hstart | hinside | ⟨_, t, _, _, _, _, htrailing, _⟩ | hempty := hf.cases
  · exact hstart
  · refine (hinside.start_or_ofGroup hg).resolve_right fun hgroup => ?_
    rw [hcause] at hgroup
    exact hgroup
  · cases hcause.symm.trans htrailing
  · cases hcause.symm.trans hempty

theorem Fails.finished_of_trailing (hg : g.Discerning) (hf : g.Fails endPosition p ts f)
    (hcause : f.cause = .trailing token) : ∃ before t after e, ts = before ++ t :: after ∧
      t.position = f.position ∧ g.Feeds (some t) p before (.finished e) := by
  have hnostart : ¬ ∃ t ∈ ts, start t = .error f.cause := by
    rintro ⟨t, -, hstart⟩
    cases hcause.symm.trans (start_eq_error hstart).1
  obtain hstart | hinside | ⟨before, t, after, e, hts, hposition, -, hfeeds⟩ | hempty :=
    hf.cases
  · exact absurd hstart hnostart
  · have hgroup := (hinside.start_or_ofGroup hg).resolve_left hnostart
    rw [hcause] at hgroup
    cases hgroup
  · exact ⟨before, t, after, e, hts, hposition, hfeeds⟩
  · cases hcause.symm.trans hempty

theorem Fails.inside_of_ofGroup (hf : g.Fails endPosition p ts f) (hcause : f.cause.OfGroup) :
    g.FailsInside endPosition p ts f := by
  obtain ⟨t, -, hstart⟩ | hinside | ⟨_, t, _, _, _, _, htrailing, _⟩ | hempty := hf.cases
  · rw [(start_eq_error hstart).1] at hcause
    cases hcause
  · exact hinside
  · rw [htrailing] at hcause
    cases hcause
  · rw [hempty] at hcause
    cases hcause

/-- The last step sees the token behind all of them. -/
theorem Feeds.last_step (h : g.Feeds next p ts q) :
    ts = [] ∨ ∃ r t, g.step r t next = .ok q := by
  induction h with
  | nil => exact .inl rfl
  | @cons p _ _ t ts hstep hrest ih =>
    cases hrest with
    | nil => exact .inr ⟨p, t, hstep⟩
    | cons hnext hlast => exact ih.imp nofun id

variable {Makes : List Lexeme → Expr → Prop} {Inside : Group → List Lexeme → Prop}
  {Waits : Held → List Lexeme → Prop} {r : Reader}

theorem Nested.fails (hg : g.Nested) (h : g.read limit source = .error f)
    (hf : ∀ l, f.cause ≠ .tooDeep l) :
    g.Fails (source.length + 1) .awaiting (Token.scan source) f := by
  cases limit with
  | none => exact fails_of_run h
  | some d => exact fails_of_run (hg.read_of_not_tooDeep h hf).1

/-- What stands before an error is read, wherever the limit does not stop it, if it makes up an
expression. -/
theorem Open.read_before (hg : g.Open Makes Inside Waits) (hn : g.Nested)
    (h : g.read limit source = .error f) (hf : ∀ l, f.cause ≠ .tooDeep l) {other : List Char}
    (hother : Token.lexemes other =
      ((Token.scan source).filter (·.position < f.position)).map Token.lexeme)
    (he : Makes (Token.lexemes other) e) : g.read limit other = .ok e := by
  have hread : g.read none other = .ok e := hg.read_of_makes he
  cases limit with
  | none => exact hread
  | some d =>
    rw [read, hn.run_of_within ((hn.read_of_not_tooDeep h hf).2.congr hother)]
    exact hread

theorem Nested.failsInside (hn : g.Nested) (h : g.read limit source = .error f)
    (hcause : f.cause.OfGroup) :
    g.FailsInside (source.length + 1) .awaiting (Token.scan source) f := by
  refine (hn.fails h fun l hl => ?_).inside_of_ofGroup hcause
  rw [hl] at hcause
  exact hcause

theorem Open.certified_trailing (hg : g.Open Makes Inside Waits) (hn : g.Nested)
    (hd : g.Discerning) (hread : ∀ (text : String) (e : Expr),
      g.read r.maxDepth text.toList = .ok e → r.read text = .ok e)
    (h : g.read r.maxDepth source = .error f) (hcause : f.cause = .trailing token) :
    Certified r source f.position (.trailing token) := by
  have hdeep : ∀ l, f.cause ≠ .tooDeep l := fun l hl => by cases hcause.symm.trans hl
  obtain ⟨before, t, after, e, hscan, hposition, hfeeds⟩ :=
    (hn.fails h hdeep).finished_of_trailing hd hcause
  have hsorted : (Token.scan source).Pairwise fun t u => t.position < u.position :=
    Token.pairwise_scanFrom 1 source
  have hbefore : (Token.scan source).filter (·.position < f.position) = before := by
    rw [hscan] at hsorted ⊢
    rw [← hposition]
    exact Token.filter_position_eq hsorted
  refine ⟨?_, e, fun text htext => hread text e (hg.read_before hn h hdeep htext ?_)⟩
  · rw [← hposition]
    exact Token.scan_take (by simp [hscan])
  · rw [htext, hbefore]
    exact hg.makes hfeeds

theorem Open.certified (hg : g.Open Makes Inside Waits) (hn : g.Nested)
    (hd : g.Discerning) (hread : ∀ (text : String) (e : Expr),
      g.read r.maxDepth text.toList = .ok e → r.read text = .ok e)
    (h : g.read r.maxDepth source = .error f) : Certified r source f.position f.cause := by
  cases hcause : f.cause with
  | unexpected token =>
    have hdeep : ∀ l, f.cause ≠ .tooDeep l := fun l hl => by cases hcause.symm.trans hl
    obtain ⟨t, ht, hstart⟩ := (hn.fails h hdeep).start_of_unexpected hd hcause
    rw [hcause] at hstart
    exact not_spells_of_unexpected ht hstart
  | trailing token => exact hg.certified_trailing hn hd hread h hcause
  | _ => trivial

end Grammar

namespace SignFirst

variable {c : Call} {outer : List Call}

theorem grammar_discerning : grammar.Discerning where
  advance {group t next cause} h := by
    cases group with
    | unnamed =>
      obtain rfl := advance_unnamed_eq_error h
      exact .inr trivial
    | call c =>
      obtain hstart | ⟨-, hmissing⟩ | ⟨-, rfl⟩ := advance_call_eq_error h
      · exact .inl hstart
      · obtain ⟨n, -, -, rfl⟩ := missing?_eq_some_iff.mp hmissing
        exact .inr trivial
      · exact .inr trivial
  ended group := by
    cases group with
    | unnamed => trivial
    | call c =>
      change (c.missing?.getD (.unclosed "")).OfGroup
      cases hmissing : c.missing? with
      | none => trivial
      | some cause =>
        obtain ⟨n, -, -, rfl⟩ := missing?_eq_some_iff.mp hmissing
        trivial

/-- Only signs of the vocabulary are called. -/
theorem takes_of_feeds (h : grammar.Feeds next .awaiting ts (.inside (.call c) outer)) {n : Nat}
    (hn : c.op.arity = .fixed n) : Takes c.op.sign n := by
  have hstart : Grammar.Consumed Derives Group.ReadFrom Call.Waits .awaiting [] := rfl
  obtain ⟨_, _, -, -, hcall⟩ := grammar_sound.consumed_feeds h hstart
  obtain ⟨sign, _, -, hsign, -⟩ := Call.ReadFrom.lexemes hcall
  exact takes_of_sign? hsign hn

theorem certified_of_failsInside
    (hf : grammar.FailsInside (source.length + 1) .awaiting (Token.scan source) f) :
    Certified source f.position f.cause := by
  generalize hscan : Token.scan source = ts at hf
  cases hf with
  | @atToken before after t group outer cause hfeeds hadvance =>
    have ht : t ∈ Token.scan source := by simp [hscan]
    cases group with
    | unnamed =>
      obtain rfl := advance_unnamed_eq_error hadvance
      trivial
    | call c =>
      obtain hstart | ⟨hclosing, hmissing⟩ | ⟨hne, rfl⟩ := advance_call_eq_error hadvance
      · rw [(start_eq_error hstart).1]
        trivial
      · obtain ⟨n, hn, hlt, rfl⟩ := missing?_eq_some_iff.mp hmissing
        refine ⟨takes_of_feeds hfeeds hn, hlt, .inr ?_⟩
        rw [← hclosing]
        exact ht
      · exact fun htext => hne (lexeme_of_text ht trivial htext)
  | @atEnd _ group outer hfeeds =>
    cases group with
    | unnamed => trivial
    | call c =>
      change Certified source _ (c.missing?.getD (.unclosed ""))
      cases hmissing : c.missing? with
      | none => exact (by decide : "" ≠ ")")
      | some cause =>
        obtain ⟨n, hn, hlt, rfl⟩ := missing?_eq_some_iff.mp hmissing
        exact ⟨takes_of_feeds hfeeds hn, hlt, .inl rfl⟩

theorem certified (h : grammar.read limit source = .error f) :
    Certified source f.position f.cause := by
  have hgroup (hcause : f.cause.OfGroup) :=
    certified_of_failsInside (grammar_nested.failsInside h hcause)
  cases hcause : f.cause with
  | unclosed got => exact hcause ▸ hgroup (hcause ▸ trivial)
  | operandCount sign expected got => exact hcause ▸ hgroup (hcause ▸ trivial)
  | _ => trivial

end SignFirst

namespace SignLast

variable {operands : List Expr} {outer : List (List Expr)} {p : Progress Group (List Expr)}

theorem grammar_discerning : grammar.Discerning where
  advance {group t next cause} h := by
    cases group with
    | filling operands =>
      obtain hstart | ⟨-, -, rfl⟩ | ⟨op, expected, -, -, -, -, rfl⟩ :=
        advance_filling_eq_error h
      · exact .inl hstart
      · exact .inr trivial
      · exact .inr trivial
    | complete e =>
      obtain ⟨-, rfl⟩ := advance_complete_eq_error h
      exact .inr trivial
  ended _ := trivial

/-- A sign is taken only in front of the parenthesis. -/
theorem step_complete (h : grammar.step p t next = .ok (.inside (.complete e) outer)) :
    ¬ GoesOn next := by
  obtain ⟨-, -, hq⟩ | ⟨_, _, -, -, -, hq⟩ | ⟨group, outer', move, -, hmove, hq⟩ :=
    Grammar.step_eq_ok h
  · cases hq
  · cases hq
  · cases group with
    | complete e' =>
      obtain ⟨-, rfl⟩ := advance_complete_eq_ok_iff.mp hmove
      cases outer' <;> cases hq
    | filling operands =>
      obtain ⟨hlast, -⟩ | ⟨-, op, left, -, -, rfl⟩ | ⟨-, -, first, -, rfl⟩ :=
        advance_filling_eq_ok_iff.mp hmove
      · exact hlast
      · cases hq
      · cases first <;> cases hq

theorem feeds_complete (h : grammar.Feeds next .awaiting ts (.inside (.complete e) outer)) :
    ¬ GoesOn next := by
  obtain rfl | ⟨r, t, hstep⟩ := h.last_step
  · cases h
  · exact step_complete hstep

theorem exists_closing (h : ¬ GoesOn next) : ∃ u ∈ next, u.lexeme = .closing := by
  cases next with
  | none => exact absurd rfl h
  | some u => exact ⟨u, rfl, by simpa [GoesOn] using h⟩

theorem closesGroups (source : List Char) : ClosesGroups source := by
  intro before rest e outer _ hfeeds
  exact exists_closing (feeds_complete hfeeds)

theorem beforeClosing_of_goesOn (h : ¬ GoesOn after.head?) :
    BeforeClosing (before ++ t :: after) t := by
  obtain ⟨u, hu, hclosing⟩ := exists_closing h
  obtain ⟨rest, rfl⟩ := List.head?_eq_some_iff.mp hu
  exact ⟨u, ⟨before, rest, by simp⟩, hclosing⟩

theorem certified_of_failsInside
    (hf : grammar.FailsInside (source.length + 1) .awaiting (Token.scan source) f) :
    Certified source f.position f.cause := by
  generalize hscan : Token.scan source = ts at hf
  cases hf with
  | @atToken before after t group outer cause hfeeds hadvance =>
    cases group with
    | filling operands =>
      obtain hstart | ⟨hlast, hsign, rfl⟩ | ⟨op, expected, hsign, hop, hne, hlast, rfl⟩ :=
        advance_filling_eq_error hadvance
      · rw [(start_eq_error hstart).1]
        trivial
      · refine ⟨(ofSign?_text t).trans hsign, t, rfl, rfl, ?_⟩
        rw [hscan]
        exact beforeClosing_of_goesOn hlast
      · refine ⟨takes_of_sign? hsign hop, hne, t, by simp [hscan], rfl, ?_, fun hgt => ?_⟩
        · exact (mem_vocabulary_of_sign? hsign).2.symm
        · rw [hscan]
          exact beforeClosing_of_goesOn (hlast hgt)
    | complete e =>
      obtain ⟨hne, -⟩ := advance_complete_eq_error hadvance
      obtain ⟨u, hu, hclosing⟩ := exists_closing (feeds_complete hfeeds)
      obtain rfl := Option.some.inj hu
      exact absurd hclosing hne
  | atEnd _ => exact ⟨rfl, rfl⟩

theorem certified (h : grammar.read limit source = .error f) :
    Certified source f.position f.cause := by
  have hgroup (hcause : f.cause.OfGroup) :=
    certified_of_failsInside (grammar_nested.failsInside h hcause)
  cases hcause : f.cause with
  | unclosed got => exact hcause ▸ hgroup (hcause ▸ trivial)
  | signExpected token => exact hcause ▸ hgroup (hcause ▸ trivial)
  | operandCount sign expected got => exact hcause ▸ hgroup (hcause ▸ trivial)
  | _ => trivial

end SignLast
end Reading

namespace Reader

open Reading

/-- Whatever a text fails for, the error certifies what `Certified` says of it, with each notation's
own causes. With the sign last, the parenthesis behind the sign of a group is never missing. -/
theorem read_error_certifies (r : Reader) {text : String} {err : ParseError}
    (h : r.read text = .error err) :
    Certified r text.toList err.position err.cause ∧
      match r.form with
      | .signFirst => SignFirst.Certified text.toList err.position err.cause
      | .signLast =>
        SignLast.Certified text.toList err.position err.cause ∧
          SignLast.ClosesGroups text.toList := by
  obtain ⟨form, width, limit⟩ := r
  cases form with
  | signFirst =>
    obtain ⟨f, hf, rfl⟩ := except_mapError_eq_error.mp h
    refine ⟨?_, SignFirst.certified hf⟩
    exact SignFirst.grammar_open.certified SignFirst.grammar_nested SignFirst.grammar_discerning
      (fun _ _ => except_mapError_eq_ok.mpr) hf
  | signLast =>
    obtain ⟨f, hf, rfl⟩ := except_mapError_eq_error.mp h
    refine ⟨?_, SignLast.certified hf, SignLast.closesGroups _⟩
    exact SignLast.grammar_open.certified SignLast.grammar_nested SignLast.grammar_discerning
      (fun _ _ => except_mapError_eq_ok.mpr) hf

/-- One operand too many, at a sign in front of its parenthesis, and one parenthesis too many,
behind a text that is read within the limit, also with other blanks. -/
theorem read_error_certifies_sums :
    (Reader.mk .signLast 20 none).read "(x y z +)" =
        .error (Fault.within ⟨.operandCount "+" 2 3, 8⟩ "(x y z +)".toList 20) ∧
      (∃ t, t.position = 8 ∧ t.text = "+" ∧
        BeforeClosing (Token.scan "(x y z +)".toList) t) ∧
    (Reader.mk .signFirst 20 (some 1)).read "(+ x y))" =
        .error (Fault.within ⟨.trailing ")", 8⟩ "(+ x y))".toList 20) ∧
      ∃ e, (Reader.mk .signFirst 20 (some 1)).read "( + x y )" = .ok e := by
  have hcount : (Reader.mk .signLast 20 none).read "(x y z +)" =
      .error (Fault.within ⟨.operandCount "+" 2 3, 8⟩ "(x y z +)".toList 20) := by rfl
  have hrest : (Reader.mk .signFirst 20 (some 1)).read "(+ x y))" =
      .error (Fault.within ⟨.trailing ")", 8⟩ "(+ x y))".toList 20) := by rfl
  obtain ⟨-, ⟨-, -, t, -, hposition, htext, hclosing⟩, -⟩ := read_error_certifies _ hcount
  obtain ⟨⟨-, e, hread⟩, -⟩ := read_error_certifies _ hrest
  exact ⟨hcount, ⟨t, hposition, htext, hclosing (by decide)⟩, hrest, e,
    hread "( + x y )" (by decide +kernel)⟩

end Reader
end Fluxion
