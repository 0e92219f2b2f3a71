import Fluxion.Proofs.Reading.Scan
import Fluxion.Proofs.Reading.SignFirst
import Fluxion.Proofs.Reading.SignLast

namespace Fluxion.Reading

open Token (Proper lexemes spaced)

namespace Grammar

variable {Group Held : Type} {g : Grammar Group Held} {t : Token} {ts us : List Token}
  {next : Option Token} {outer : List Held} {ls ms : List Lexeme}
  {p q r : Progress Group Held} {e : Expr} {f : Fault} {endPosition : Nat} {source : List Char}

/-- A reading fails at the first token that no step goes over, or at the end. -/
inductive Fails (g : Grammar Group Held) (endPosition : Nat) (p : Progress Group Held) :
    List Token → Fault → Prop
  | atToken {before after : List Token} {t : Token} {q : Progress Group Held} {cause : ParseCause} :
      g.Feeds (some t) p before q → g.step q t after.head? = .error cause →
      Fails g endPosition p (before ++ t :: after) ⟨cause, t.position⟩
  | atEnd {ts : List Token} {q : Progress Group Held} {cause : ParseCause} :
      g.Feeds none p ts q → g.finish q = .error cause →
      Fails g endPosition p ts ⟨cause, endPosition⟩

theorem fails_of_run (h : g.run none endPosition p ts = .error f) : g.Fails endPosition p ts f := by
  have hexcess (p : Progress Group Held) : p.excess? none = none := rfl
  induction ts generalizing p with
  | nil =>
    simp only [run, hexcess] at h
    obtain ⟨cause, hfinish, rfl⟩ := except_mapError_eq_error.mp h
    exact .atEnd .nil hfinish
  | cons t ts ih =>
    simp only [run, hexcess] at h
    cases hstep : g.step p t ts.head? with
    | error cause =>
      rw [hstep] at h
      obtain rfl := Except.error.inj h
      exact @Fails.atToken _ _ _ _ _ [] _ _ _ _ .nil hstep
    | ok q =>
      rw [hstep] at h
      cases ih h with
      | @atToken before after t' q' cause hfeeds herror =>
        have hfirst : g.step p t (before.head?.or (some t')) = .ok q := by
          rw [← hstep]
          cases before <;> rfl
        exact @Fails.atToken _ _ _ _ _ (t :: before) _ _ _ _ (.cons hfirst hfeeds) herror
      | atEnd hfeeds hfinish => exact .atEnd (.cons (by rw [Option.or_none, hstep]) hfeeds) hfinish

theorem Feeds.split (h : g.Feeds next p (ts ++ us) r) :
    ∃ q, g.Feeds (us.head?.or next) p ts q ∧ g.Feeds next q us r := by
  induction ts generalizing p with
  | nil => exact ⟨p, .nil, h⟩
  | cons t ts ih =>
    cases h with
    | cons hstep hrest =>
      obtain ⟨q, hts, hus⟩ := ih hrest
      refine ⟨q, .cons ?_ hts, hus⟩
      rw [← Option.or_assoc, ← List.head?_append]
      exact hstep

theorem Feeds.target_unique (h : g.Feeds next p ts q) (h' : g.Feeds next p ts r) : q = r := by
  induction h with
  | nil =>
    cases h'
    rfl
  | cons hstep _ ih =>
    cases h' with
    | cons hstep' hrest =>
      rw [hstep] at hstep'
      obtain rfl := Except.ok.inj hstep'
      exact ih hrest

variable {Makes : List Lexeme → Expr → Prop} {Inside : Group → List Lexeme → Prop}
  {Waits : Held → List Lexeme → Prop}

/-- A grammar whose open groups can all be closed, that reads all of its language, and that refuses
no token for being the last so far. -/
structure Open (Makes : List Lexeme → Expr → Prop) (Inside : Group → List Lexeme → Prop)
    (Waits : Held → List Lexeme → Prop) (g : Grammar Group Held) : Prop
    extends Sound Makes Inside Waits g where
  closes : ∀ {group : Group} {ls : List Lexeme}, Inside group ls →
    ∃ ms e, (∀ l ∈ ms, Proper l) ∧ Makes (ls ++ ms) e
  reads : ∀ {ts : List Token} {e : Expr}, Makes (ts.map Token.lexeme) e →
    g.Feeds none .awaiting ts (.finished e)
  patient : ∀ {p q : Progress Group Held} {t : Token} {next : Option Token},
    g.step p t next = .ok q → ∃ r, g.step p t none = .ok r

/-- With the innermost group closed, the one around it is the innermost. -/
theorem Open.waiting_closes (hg : Open Makes Inside Waits g) (hw : Waiting Waits outer ls)
    (he : Makes ms e) : ∃ more e, (∀ l ∈ more, Proper l) ∧ Makes (ls ++ ms ++ more) e := by
  induction hw generalizing ms e with
  | nil => exact ⟨[], e, by simp, by simpa using he⟩
  | cons _ hheld ih =>
    obtain ⟨front, e, hfront, he⟩ := hg.closes (hg.resume hheld he)
    obtain ⟨back, e, hback, he⟩ := ih he
    refine ⟨front ++ back, e, fun l hl => ?_, by simpa using he⟩
    exact (List.mem_append.mp hl).elim (hfront l) (hback l)

/-- Whatever was read can be completed. -/
theorem Open.consumed_completes (hg : Open Makes Inside Waits g)
    (hp : Consumed Makes Inside Waits p ls) :
    ∃ more e, (∀ l ∈ more, Proper l) ∧ Makes (ls ++ more) e := by
  cases p with
  | awaiting =>
    subst ls
    exact ⟨[.word Variable.x.name.toList], _, List.forall_mem_singleton.mpr (isWord_variable .x),
      hg.leaf (.variable .x)⟩
  | finished e => exact ⟨[], e, by simp, by rwa [List.append_nil]⟩
  | inside group outer =>
    obtain ⟨before, inner, rfl, hw, hinner⟩ := hp
    obtain ⟨front, e, hfront, he⟩ := hg.closes hinner
    obtain ⟨back, e, hback, he⟩ := hg.waiting_closes hw he
    refine ⟨front ++ back, e, fun l hl => ?_, by simpa using he⟩
    exact (List.mem_append.mp hl).elim (hfront l) (hback l)

theorem Open.feeds_completes (hg : Open Makes Inside Waits g) (h : g.Feeds next .awaiting ts q) :
    ∃ more e, (∀ l ∈ more, Proper l) ∧ Makes (ts.map Token.lexeme ++ more) e := by
  have hstart : Consumed Makes Inside Waits (.awaiting : Progress Group Held) [] := rfl
  have hq := hg.consumed_feeds h hstart
  rw [List.nil_append] at hq
  exact hg.consumed_completes hq

theorem Open.read_of_makes (hg : Open Makes Inside Waits g) (h : Makes (lexemes source) e) :
    g.read none source = .ok e := read_eq_ok_iff.mpr (hg.reads h)

/-- No later token repairs one that was refused. -/
theorem Open.not_feeds_of_error (hg : Open Makes Inside Waits g) {after : List Token}
    {cause : ParseCause} (hts : g.Feeds (some t) p ts q)
    (herror : g.step q t after.head? = .error cause) (more : List Token) :
    ¬ g.Feeds next p (ts ++ t :: after ++ more) r := by
  intro h
  rw [List.append_assoc] at h
  obtain ⟨q', hts', hrest⟩ := h.split
  obtain rfl := hts.target_unique hts'
  cases hrest with
  | cons hstep _ =>
    cases after with
    | nil =>
      obtain ⟨r, hr⟩ := hg.patient hstep
      rw [List.head?_nil, hr] at herror
      cases herror
    | cons u after =>
      rw [List.append_eq, List.cons_append, List.head?_cons, Option.some_or, ← List.head?_cons,
        herror] at hstep
      cases hstep

/-- The tokens before an error are those that the reading got over. -/
theorem Fails.feeds_before (hf : g.Fails (source.length + 1) .awaiting (Token.scan source) f) :
    ∃ next q, g.Feeds next .awaiting
      ((Token.scan source).filter (·.position < f.position)) q := by
  have hsorted : (Token.scan source).Pairwise (·.position < ·.position) :=
    Token.pairwise_scanFrom 1 source
  have hend : ∀ t ∈ Token.scan source, t.position < source.length + 1 := by
    intro t ht
    have hpos := (Token.position_scanFrom ht).2
    omega
  generalize Token.scan source = ts at *
  cases hf with
  | @atToken before after t q cause hfeeds _ =>
    refine ⟨some t, q, ?_⟩
    rw [Token.filter_position_eq hsorted]
    exact hfeeds
  | @atEnd _ q _ hfeeds _ =>
    refine ⟨none, q, ?_⟩
    rw [Token.filter_position_of_lt hend]
    exact hfeeds

/-- The tokens that start before an error are the start of a text that is read. -/
theorem Open.completes_before_error (hg : Open Makes Inside Waits g)
    (h : g.read none source = .error f) : ∃ more e, (∀ l ∈ more, Proper l) ∧
      g.read none (spaced
        (((Token.scan source).filter (·.position < f.position)).map Token.lexeme ++ more)) =
          .ok e := by
  obtain ⟨next, q, hfeeds⟩ := (fails_of_run h).feeds_before
  obtain ⟨more, e, hmore, he⟩ := hg.feeds_completes hfeeds
  refine ⟨more, e, hmore, hg.read_of_makes ?_⟩
  rw [Token.lexemes_spaced]
  · exact he
  · intro l hl
    rcases List.mem_append.mp hl with hl | hl
    · obtain ⟨t, ht, rfl⟩ := List.mem_map.mp hl
      exact Token.proper_of_mem_scanFrom (List.mem_filter.mp ht).1
    · exact hmore l hl

/-- An error stands at the end exactly where the text goes on to one that is read. -/
theorem Open.error_at_end_iff (hg : Open Makes Inside Waits g) (h : g.read none source = .error f) :
    f.position = source.length + 1 ↔
      ∃ c rest e, isBlank c ∧ g.read none (source ++ c :: rest) = .ok e := by
  have hfails : g.Fails (source.length + 1) .awaiting (Token.scan source) f := fails_of_run h
  constructor
  · intro hend
    obtain ⟨next, q, hfeeds⟩ := hfails.feeds_before
    have hall : (Token.scan source).filter (·.position < f.position) = Token.scan source := by
      refine Token.filter_position_of_lt fun t ht => ?_
      have hpos := (Token.position_scanFrom ht).2
      omega
    rw [hall] at hfeeds
    obtain ⟨more, e, hmore, he⟩ := hg.feeds_completes hfeeds
    have hblank : isBlank ' ' := by decide
    refine ⟨' ', spaced more, e, hblank, hg.read_of_makes ?_⟩
    rw [Token.lexemes_append (Token.apart_blank hblank), Token.lexemes_blank hblank,
      Token.lexemes_spaced hmore]
    exact he
  · rintro ⟨c, rest, e, hc, hread⟩
    have hread := read_eq_ok_iff.mp hread
    rw [Token.scan, Token.scanFrom_append (Token.apart_blank hc)] at hread
    change g.Feeds _ _ (Token.scan source ++ _) _ at hread
    generalize Token.scan source = ts at *
    cases hfails with
    | atToken hfeeds herror => exact absurd hread (hg.not_feeds_of_error hfeeds herror _)
    | atEnd _ _ => rfl

end Grammar

theorem sign?_sign {op : Operator} (hop : op ∈ Operator.vocabulary) :
    (Lexeme.word op.sign.toList).sign? = some op := by
  rw [Lexeme.sign?, String.ofList_toList, Operator.ofSign?_sign hop]

/-- A group without operands can still take this sign. -/
theorem sumexp_mem_vocabulary : Operator.any .sumexp ∈ Operator.vocabulary := by decide

namespace SignFirst

/-- As many operands as a call falls short of. -/
theorem DerivesAll.replicate {ls : List Lexeme} {es : List Expr} (hes : DerivesAll ls es)
    {l : Lexeme} {e : Expr} (he : Derives [l] e) (count : Nat) :
    DerivesAll (ls ++ List.replicate count l) (es ++ List.replicate count e) := by
  induction count with
  | zero => simpa using hes
  | succ count ih =>
    rw [List.replicate_succ', List.replicate_succ', ← List.append_assoc, ← List.append_assoc]
    exact ih.snoc he

theorem Group.ReadFrom.closes {group : Group} {ls : List Lexeme} (hg : group.ReadFrom ls) :
    ∃ ms e, (∀ l ∈ ms, Proper l) ∧ Derives (ls ++ ms) e := by
  cases group with
  | unnamed =>
    obtain rfl := hg
    refine ⟨[.word (Operator.any .sumexp).sign.toList, .closing], _, ?_,
      .group (sign?_sign sumexp_mem_vocabulary) rfl .nil⟩
    simpa using ⟨isWord_sign (.any .sumexp), trivial⟩
  | call c =>
    obtain ⟨sign, body, rfl, hsign, hbody⟩ := hg.lexemes
    have hoperand : Derives [.word Variable.x.name.toList] (.leaf (.var .x)) := .leaf (.variable .x)
    have hall := hbody.replicate hoperand (c.op.arity.fixed?.getD 0 - c.operands.length)
    generalize hcount : c.op.arity.fixed?.getD 0 - c.operands.length = count at hall
    have haccepts : c.op.arity.accepts
        (c.operands.reverse ++ List.replicate count (Term.leaf (Leaf.var .x))).length := by
      refine Arity.accepts_iff.mpr fun n hn => ?_
      have hfits := hg.fits n hn
      simp only [hn, Arity.fixed?, Option.getD_some] at hcount
      simp only [List.length_append, List.length_reverse, List.length_replicate]
      omega
    have hgroup := Derives.group hsign haccepts hall
    refine ⟨List.replicate count (.word Variable.x.name.toList) ++ [.closing], _, fun l hl => ?_,
      by simpa using hgroup⟩
    rcases List.mem_append.mp hl with hl | hl
    · rw [List.eq_of_mem_replicate hl]
      exact isWord_variable .x
    · rw [List.mem_singleton.mp hl]
      trivial

theorem grammar_open : Grammar.Open Derives Group.ReadFrom Call.Waits grammar where
  toSound := grammar_sound
  closes := Group.ReadFrom.closes
  reads := feeds_iff.mpr
  patient := by
    intro p q t next h
    refine ⟨q, ?_⟩
    cases p <;> exact h

end SignFirst

namespace SignLast

variable {operands : List Expr} {op : Operator} {t : Token}

theorem Group.ReadFrom.closes {group : Group} {ls : List Lexeme} (hg : group.ReadFrom ls) :
    ∃ ms e, (∀ l ∈ ms, Proper l) ∧ Denotes (ls ++ ms) e := by
  cases group with
  | filling operands =>
    obtain ⟨items, rfl, hs⟩ := hg
    refine ⟨[.word (Operator.any .sumexp).sign.toList, .closing], _, ?_,
      .group hs (sign?_sign sumexp_mem_vocabulary) rfl⟩
    simpa using ⟨isWord_sign (.any .sumexp), trivial⟩
  | complete e => exact ⟨[.closing], e, List.forall_mem_singleton.mpr trivial, hg⟩

/-- A sign that can take all operands can take those it needs. -/
theorem exists_applyInside (h : op.arity.accepts operands.length) :
    ∃ left, applyInside operands op = .ok left := by
  have hcount : ¬ operands.length < op.arity.fixed?.getD operands.length := by
    cases hop : op.arity with
    | variadic => simp [Arity.fixed?]
    | fixed count => simp [Arity.fixed?, Arity.accepts_iff.mp h count hop]
  exact ⟨_, if_neg hcount⟩

theorem advance_patient {group : Group} {next : Option Token} {move : Move Group (List Expr)}
    (h : grammar.advance group t next = .ok move) :
    ∃ other, grammar.advance group t none = .ok other := by
  have hgoes : GoesOn none := rfl
  cases group with
  | complete e => exact ⟨move, advance_complete_eq_ok_iff.mpr (advance_complete_eq_ok_iff.mp h)⟩
  | filling operands =>
    obtain ⟨-, op, hsign, haccepts, -⟩ | ⟨-, op, left, hsign, hleft, -⟩ |
      ⟨-, hsign, first, hstart, -⟩ :=
      advance_filling_eq_ok_iff.mp h
    · obtain ⟨left, hleft⟩ := exists_applyInside haccepts
      exact ⟨_, advance_filling_eq_ok_iff.mpr
        (.inr (.inl ⟨hgoes, op, left, hsign, hleft, rfl⟩))⟩
    · exact ⟨_, advance_filling_eq_ok_iff.mpr
        (.inr (.inl ⟨hgoes, op, left, hsign, hleft, rfl⟩))⟩
    · exact ⟨_, advance_filling_eq_ok_iff.mpr
        (.inr (.inr ⟨hgoes, hsign, first, hstart, rfl⟩))⟩

theorem grammar_open : Grammar.Open Denotes Group.ReadFrom Waits grammar where
  toSound := grammar_sound
  closes := Group.ReadFrom.closes
  reads := feeds_iff.mpr
  patient := by
    intro p q t next h
    cases p with
    | awaiting => exact ⟨q, h⟩
    | finished e => cases h
    | inside group outer =>
      rw [Grammar.step_inside] at h ⊢
      obtain ⟨move, hmove, -⟩ := except_map_eq_ok.mp h
      obtain ⟨other, hother⟩ := advance_patient hmove
      exact ⟨_, except_map_eq_ok.mpr ⟨other, hother, rfl⟩⟩

end SignLast

end Fluxion.Reading

namespace Fluxion.Reader

open Token (Proper spaced)
open Reading

/-- Reading with no limit on the depth is reading by one of the grammars. -/
theorem exists_grammar (form : Notation) (width : Nat) :
    ∃ (Group Held : Type) (Makes : List Lexeme → Expr → Prop)
      (Inside : Group → List Lexeme → Prop) (Waits : Held → List Lexeme → Prop)
      (g : Grammar Group Held), g.Open Makes Inside Waits ∧
      ∀ text, (Reader.mk form width none).read text =
        (g.read none text.toList).mapError (·.within text.toList width) := by
  cases form with
  | signFirst => exact ⟨_, _, _, _, _, _, SignFirst.grammar_open, fun _ => rfl⟩
  | signLast => exact ⟨_, _, _, _, _, _, SignLast.grammar_open, fun _ => rfl⟩

/-- With no limit on the depth, the tokens that start before an error are the start of a text that
is read, and the error stands at the end exactly where the text itself goes on to one that is. -/
theorem read_error_earliest (form : Notation) (width : Nat) {text : String} {err : ParseError}
    (h : (Reader.mk form width none).read text = .error err) :
    (∃ more e, (∀ l ∈ more, Proper l) ∧
      (Reader.mk form width none).read (String.ofList (spaced
        (((Token.scan text.toList).filter (·.position < err.position)).map Token.lexeme ++
          more))) = .ok e) ∧
      (err.position = text.length + 1 ↔ ∃ c rest e, isBlank c ∧
        (Reader.mk form width none).read (text ++ String.ofList (c :: rest)) = .ok e) := by
  obtain ⟨_, _, _, _, _, g, hg, hread⟩ := exists_grammar form width
  rw [hread] at h
  obtain ⟨f, hf, rfl⟩ := except_mapError_eq_error.mp h
  have hok (source : List Char) (e : Expr) :
      (Reader.mk form width none).read (String.ofList source) = .ok e ↔
        g.read none source = .ok e := by
    rw [hread, except_mapError_eq_ok, String.toList_ofList]
  constructor
  · obtain ⟨more, e, hmore, he⟩ := hg.completes_before_error hf
    exact ⟨more, e, hmore, (hok _ e).mpr he⟩
  · have htext (c : Char) (rest : List Char) :
        text ++ String.ofList (c :: rest) = String.ofList (text.toList ++ c :: rest) := by
      rw [String.ofList_append, String.ofList_toList]
    have hend := hg.error_at_end_iff hf
    simp only [htext, hok]
    rw [← String.length_toList]
    exact hend

/-- Another token would do for an open group, but none for a parenthesis too many. -/
theorem read_error_open_group :
    ((Reader.mk .signLast 20 none).read "(x y" =
        .error (Fault.within ⟨.unclosed "", 5⟩ "(x y".toList 20) ∧
      ∃ c rest e, isBlank c ∧
        (Reader.mk .signLast 20 none).read ("(x y" ++ String.ofList (c :: rest)) = .ok e) ∧
    ((Reader.mk .signFirst 20 none).read "(+ x y))" =
        .error (Fault.within ⟨.trailing ")", 8⟩ "(+ x y))".toList 20) ∧
      ¬ ∃ c rest e, isBlank c ∧
        (Reader.mk .signFirst 20 none).read ("(+ x y))" ++ String.ofList (c :: rest)) = .ok e) := by
  have hopen : (Reader.mk .signLast 20 none).read "(x y" =
      .error (Fault.within ⟨.unclosed "", 5⟩ "(x y".toList 20) := by rfl
  have hclosed : (Reader.mk .signFirst 20 none).read "(+ x y))" =
      .error (Fault.within ⟨.trailing ")", 8⟩ "(+ x y))".toList 20) := by rfl
  refine ⟨⟨hopen, ?_⟩, hclosed, ?_⟩
  · exact (read_error_earliest .signLast 20 hopen).2.mp rfl
  · exact fun hmore => absurd ((read_error_earliest .signFirst 20 hclosed).2.mpr hmore) (by decide)

end Fluxion.Reader
