import Fluxion.Reader
import Fluxion.Proofs.Reading.Nesting

namespace Fluxion.Reading.SignLast

mutual
/-- Lexemes that make up an expression: a word, or a group whose last sign takes all that
its items have left on the stack. -/
inductive Denotes : List Lexeme → Expr → Prop
  | leaf {chars : List Char} {l : Leaf} : Spells chars l → Denotes [.word chars] (.leaf l)
  | group {items : List Lexeme} {es : List Expr} {sign : Lexeme} {op : Operator} :
      Stacks items es → sign.sign? = some op → op.arity.accepts es.length →
      Denotes (.opening :: items ++ [sign, .closing]) (.operation op es)

/-- What items leave on a stack that was empty, the latest at the end. -/
inductive Stacks : List Lexeme → List Expr → Prop
  | nil : Stacks [] []
  | operand {items ls : List Lexeme} {es : List Expr} {e : Expr} :
      Stacks items es → Denotes ls e → Stacks (items ++ ls) (es ++ [e])
  | fixed {items : List Lexeme} {es args : List Expr} {sign : Lexeme} {op : Operator} :
      Stacks items (es ++ args) → sign.sign? = some op → op.arity = .fixed args.length →
      Stacks (items ++ [sign]) (es ++ [.operation op args])
  | variadic {items : List Lexeme} {es : List Expr} {sign : Lexeme} {op : Operator} :
      Stacks items es → sign.sign? = some op → op.arity = .variadic →
      Stacks (items ++ [sign]) [.operation op es]
end

variable {t : Token} {ts : List Token} {next : Option Token} {operands : List Expr}
  {outer : List (List Expr)} {e : Expr} {op : Operator} {items ls ms : List Lexeme}
  {cause : ParseCause}

theorem applyInside_fixed (es : List Expr) {args : List Expr}
    (hop : op.arity = .fixed args.length) :
    applyInside (es ++ args).reverse op = .ok (.operation op args :: es.reverse) := by
  have hlength : args.reverse.length = args.length := List.length_reverse
  simp [applyInside, hop, Arity.fixed?, List.take_left' hlength, List.drop_left' hlength]

theorem applyInside_variadic (es : List Expr) (hop : op.arity = .variadic) :
    applyInside es.reverse op = .ok [.operation op es] := by
  have hall : es.reverse.take es.length = es.reverse := List.take_of_length_le (by simp)
  simp [applyInside, hop, Arity.fixed?, hall]

theorem Stacks.applyInside (hs : Stacks items operands.reverse) (ht : t.lexeme.sign? = some op)
    {left : List Expr} (hleft : SignLast.applyInside operands op = .ok left) :
    Stacks (items ++ [t.lexeme]) left.reverse := by
  cases hop : op.arity with
  | variadic =>
    have happly := applyInside_variadic operands.reverse hop
    rw [List.reverse_reverse, hleft] at happly
    obtain rfl := Except.ok.inj happly
    exact .variadic hs ht hop
  | fixed count =>
    have hcount : count ≤ operands.length := by
      refine Nat.le_of_not_lt fun hlt => ?_
      simp [SignLast.applyInside, hop, Arity.fixed?, hlt] at hleft
    have hsplit :
        operands.reverse = (operands.drop count).reverse ++ (operands.take count).reverse := by
      rw [← List.reverse_append, List.take_append_drop]
    have hargs : op.arity = .fixed (operands.take count).reverse.length := by
      rw [hop, List.length_reverse, List.length_take, Nat.min_eq_left hcount]
    have happly := applyInside_fixed (operands.drop count).reverse hargs
    rw [← hsplit, List.reverse_reverse, hleft, List.reverse_reverse] at happly
    obtain rfl := Except.ok.inj happly
    rw [hsplit] at hs
    simpa using hs.fixed ht hargs

/-- The group is not about to close, so its tokens are items. -/
def GoesOn (next : Option Token) : Prop := next.any (·.lexeme = .closing) = false

/-- The sign of the group takes all operands, any other sign takes its own, and an operand is
added. -/
theorem advance_filling_eq_ok_iff {move : Move Group (List Expr)} :
    grammar.advance (.filling operands) t next = .ok move ↔
      (¬ GoesOn next ∧ ∃ op, t.lexeme.sign? = some op ∧ op.arity.accepts operands.length ∧
        move = .stay (.complete (.operation op operands.reverse))) ∨
      (GoesOn next ∧ ∃ op left, t.lexeme.sign? = some op ∧
        applyInside operands op = .ok left ∧
        move = .stay (.filling left)) ∨
      (GoesOn next ∧ t.lexeme.sign? = none ∧
        ∃ first, start t = .ok first ∧ move = grammar.taken operands first) := by
  change (Group.filling operands).advance t next = _ ↔ _
  unfold Group.advance GoesOn
  cases next.any (·.lexeme = .closing) with
  | true =>
    unfold applyLast
    cases t.lexeme.sign? with
    | none => simp [Except.map]
    | some op =>
      simp only [Option.some.injEq, exists_eq_left', ← Arity.mismatch?_eq_none_iff]
      cases op.arity.mismatch? operands.length with
      | none => simpa [Except.map] using eq_comm
      | some expected => simp [Except.map]
  | false =>
    unfold fill
    cases t.lexeme.sign? with
    | some op =>
      cases hleft : applyInside operands op with
      | error cause => simp [hleft, Except.map]
      | ok left => simpa [hleft, Except.map] using eq_comm
    | none =>
      cases start t with
      | error cause => simp
      | ok first => cases first <;> simpa [Grammar.taken, grammar] using eq_comm

theorem advance_complete_eq_ok_iff {move : Move Group (List Expr)} :
    grammar.advance (.complete e) t next = .ok move ↔
      t.lexeme = .closing ∧ move = .close e := by
  change (if t.lexeme = .closing then Except.ok (Move.close e)
    else .error (ParseCause.unclosed t.text)) =
    .ok move ↔ _
  by_cases ht : t.lexeme = .closing
  · simpa [ht] using eq_comm
  · simp [ht]

theorem applyLast_eq_error (h : applyLast operands t = .error cause) :
    (t.lexeme.sign? = none ∧ cause = .signExpected t.text) ∨
      ∃ op expected, t.lexeme.sign? = some op ∧ op.arity = .fixed expected ∧
        expected ≠ operands.length ∧
        cause = .operandCount op.sign expected operands.length := by
  unfold applyLast at h
  split at h
  · rename_i hsign
    obtain rfl := Except.error.inj h
    exact .inl ⟨hsign, rfl⟩
  · rename_i op hsign
    split at h
    · rename_i expected hcount
      obtain rfl := Except.error.inj h
      obtain ⟨hop, hne⟩ := Arity.mismatch?_eq_some_iff.mp hcount
      exact .inr ⟨op, expected, hsign, hop, hne, rfl⟩
    · cases h

theorem applyInside_eq_error (h : applyInside operands op = .error cause) : ∃ expected,
    op.arity = .fixed expected ∧ operands.length < expected ∧
      cause = .operandCount op.sign expected operands.length := by
  simp only [applyInside] at h
  split at h
  · rename_i hlt
    obtain rfl := Except.error.inj h
    cases hop : op.arity with
    | fixed n =>
      rw [hop] at hlt
      exact ⟨n, rfl, hlt, rfl⟩
    | variadic =>
      rw [hop] at hlt
      exact absurd hlt (Nat.lt_irrefl _)
  · cases h

theorem fill_eq_error (h : fill operands t = .error cause) : start t = .error cause ∨
    ∃ op expected, t.lexeme.sign? = some op ∧ op.arity = .fixed expected ∧
      operands.length < expected ∧ cause = .operandCount op.sign expected operands.length := by
  unfold fill at h
  split at h
  · rename_i op hsign
    obtain ⟨expected, hop, hlt, hcause⟩ := applyInside_eq_error (except_map_eq_error.mp h)
    exact .inr ⟨op, expected, hsign, hop, hlt, hcause⟩
  · split at h
    · cases h
    · cases h
    · rename_i hstart
      obtain rfl := Except.error.inj h
      exact .inl hstart

/-- A group refuses an operand, expects a sign before its parenthesis, or a sign does not get as
many operands as it takes. Only the last sign can get too many. -/
theorem advance_filling_eq_error (h : grammar.advance (.filling operands) t next = .error cause) :
    start t = .error cause ∨
      (¬ GoesOn next ∧ t.lexeme.sign? = none ∧ cause = .signExpected t.text) ∨
      ∃ op expected, t.lexeme.sign? = some op ∧ op.arity = .fixed expected ∧
        expected ≠ operands.length ∧ (expected < operands.length → ¬ GoesOn next) ∧
        cause = .operandCount op.sign expected operands.length := by
  change (Group.filling operands).advance t next = _ at h
  simp only [Group.advance] at h
  split at h
  · rename_i hnext
    have hlast : ¬ GoesOn next := by simp [GoesOn, hnext]
    obtain ⟨hsign, hcause⟩ | ⟨op, expected, hsign, hop, hne, hcause⟩ :=
      applyLast_eq_error (except_map_eq_error.mp h)
    · exact .inr (.inl ⟨hlast, hsign, hcause⟩)
    · exact .inr (.inr ⟨op, expected, hsign, hop, hne, fun _ => hlast, hcause⟩)
  · obtain hstart | ⟨op, expected, hsign, hop, hlt, hcause⟩ := fill_eq_error h
    · exact .inl hstart
    · exact .inr (.inr ⟨op, expected, hsign, hop, Nat.ne_of_gt hlt,
        fun hgt => absurd hgt (Nat.lt_asymm hlt), hcause⟩)

theorem advance_complete_eq_error (h : grammar.advance (.complete e) t next = .error cause) :
    t.lexeme ≠ .closing ∧ cause = .unclosed t.text := by
  change (if t.lexeme = .closing then Except.ok (Move.close e)
    else .error (ParseCause.unclosed t.text)) =
    _ at h
  split at h
  · cases h
  · rename_i hne
    exact ⟨hne, (Except.error.inj h).symm⟩

/-- The lexemes of a group that waits for an operand: its parenthesis and its items. -/
def Waits (operands : List Expr) (ls : List Lexeme) : Prop :=
  ∃ items, ls = .opening :: items ∧ Stacks items operands.reverse

def Group.ReadFrom : Group → List Lexeme → Prop
  | .filling operands, ls => Waits operands ls
  | .complete e, ls => Denotes (ls ++ [.closing]) e

theorem Waits.add (hw : Waits operands ls) (he : Denotes ms e) :
    Waits (e :: operands) (ls ++ ms) := by
  obtain ⟨items, rfl, hs⟩ := hw
  exact ⟨items ++ ms, rfl, by simpa using hs.operand he⟩

theorem grammar_sound : Grammar.Sound Denotes Group.ReadFrom Waits grammar where
  leaf := .leaf
  opened := ⟨[], rfl, .nil⟩
  resume := Waits.add
  stay := by
    intro group after ls t next hg hmove
    cases group with
    | complete e =>
      obtain ⟨-, hclose⟩ := advance_complete_eq_ok_iff.mp hmove
      cases hclose
    | filling operands =>
      obtain ⟨items, rfl, hs⟩ := hg
      obtain ⟨-, op, hsign, haccepts, hlast⟩ | ⟨-, op, left, hsign, hleft, hinside⟩ |
        ⟨-, -, first, hstart, hfirst⟩ := advance_filling_eq_ok_iff.mp hmove
      · obtain rfl := Move.stay.inj hlast
        have hgroup := Denotes.group hs hsign (by rwa [List.length_reverse])
        simpa [Group.ReadFrom] using hgroup
      · obtain rfl := Move.stay.inj hinside
        exact ⟨_, rfl, hs.applyInside hsign hleft⟩
      · cases first with
        | group => cases hfirst
        | leaf l =>
          obtain rfl := Move.stay.inj hfirst
          obtain ⟨chars, hword, hspells⟩ := start_eq_leaf_iff.mp hstart
          rw [hword]
          exact Waits.add ⟨items, rfl, hs⟩ (.leaf hspells)
  descend := by
    intro group held ls t next hg hmove
    cases group with
    | complete e =>
      obtain ⟨-, hclose⟩ := advance_complete_eq_ok_iff.mp hmove
      cases hclose
    | filling operands =>
      obtain ⟨-, op, -, -, hlast⟩ | ⟨-, op, left, -, -, hinside⟩ |
        ⟨-, -, first, hstart, hfirst⟩ :=
        advance_filling_eq_ok_iff.mp hmove
      · cases hlast
      · cases hinside
      · cases first with
        | group =>
          obtain rfl := Move.descend.inj hfirst
          exact ⟨start_eq_group_iff.mp hstart, hg⟩
        | leaf l => cases hfirst
  close := by
    intro group e ls t next hg hmove
    cases group with
    | complete e =>
      obtain ⟨ht, hclose⟩ := advance_complete_eq_ok_iff.mp hmove
      obtain rfl := Move.close.inj hclose
      rw [ht]
      exact hg
    | filling operands =>
      obtain ⟨-, op, -, -, hlast⟩ | ⟨-, op, left, -, -, hinside⟩ |
        ⟨-, -, first, -, hfirst⟩ :=
        advance_filling_eq_ok_iff.mp hmove
      · cases hlast
      · cases hinside
      · cases first <;> cases hfirst

/-- The lexemes do not start with a closing parenthesis. -/
def Starts (ls : List Lexeme) : Prop := ls.head? ≠ some .closing

theorem Starts.append (hls : Starts ls) (hms : Starts ms) : Starts (ls ++ ms) := by
  cases ls with
  | nil => exact hms
  | cons l ls => exact hls

theorem starts_sign {sign : Lexeme} (hsign : sign.sign? = some op) : Starts (sign :: ls) := by
  rintro ⟨⟩
  cases hsign

theorem goesOn_sign (ht : t.lexeme.sign? = some op) : GoesOn (some t) := by
  have hstarts : Starts [t.lexeme] := starts_sign ht
  simpa [GoesOn, Starts] using hstarts

theorem Denotes.starts (he : Denotes ls e) : Starts ls := by
  cases he with
  | leaf _ => simp [Starts]
  | group _ _ _ => simp [Starts]

theorem Stacks.starts {items : List Lexeme} {es : List Expr} (hs : Stacks items es) :
    Starts items := by
  match hs with
  | .nil => simp [Starts]
  | .operand hs he => exact hs.starts.append he.starts
  | .fixed hs hsign _ => exact hs.starts.append (starts_sign hsign)
  | .variadic hs hsign _ => exact hs.starts.append (starts_sign hsign)

theorem Starts.goesOn (hls : Starts ls) (hts : ts.map Token.lexeme = ls) (hnext : GoesOn next) :
    GoesOn (ts.head?.or next) := by
  cases ts with
  | nil => exact hnext
  | cons t ts =>
    subst ls
    simpa [Starts, GoesOn] using hls

theorem step_operand {first : Start} (hitem : outer ≠ [] → GoesOn next)
    (hsign : t.lexeme.sign? = none) (hstart : start t = .ok first) :
    grammar.step (Grammar.due .filling outer) t next = .ok (grammar.started outer first) := by
  refine Grammar.step_due hstart fun operands hm => advance_filling_eq_ok_iff.mpr (.inr (.inr ?_))
  exact ⟨hitem fun h => by simp [h] at hm, hsign, first, hstart, rfl⟩

theorem step_inside_sign {left : List Expr} (hnext : GoesOn next) (hsign : t.lexeme.sign? = some op)
    (hleft : applyInside operands op = .ok left) :
    grammar.step (.inside (.filling operands) outer) t next =
      .ok (.inside (.filling left) outer) := by
  rw [Grammar.step_inside,
    advance_filling_eq_ok_iff.mpr (.inr (.inl ⟨hnext, op, left, hsign, hleft, rfl⟩))]
  rfl

theorem step_last_sign (hnext : ¬ GoesOn next) (hsign : t.lexeme.sign? = some op)
    (haccepts : op.arity.accepts operands.length) :
    grammar.step (.inside (.filling operands) outer) t next =
      .ok (.inside (.complete (.operation op operands.reverse)) outer) := by
  rw [Grammar.step_inside, advance_filling_eq_ok_iff.mpr
    (.inl ⟨hnext, op, hsign, haccepts, rfl⟩)]
  rfl

theorem step_closing (ht : t.lexeme = .closing) :
    grammar.step (.inside (.complete e) outer) t next = .ok (grammar.close e outer) := by
  rw [Grammar.step_inside, advance_complete_eq_ok_iff.mpr ⟨ht, rfl⟩]
  rfl

mutual
/-- Where an operand is due, the lexemes of an expression are read to it. -/
theorem Denotes.feeds {ls : List Lexeme} {e : Expr} (he : Denotes ls e) {ts : List Token}
    (hts : ts.map Token.lexeme = ls) (outer : List (List Expr)) {next : Option Token}
    (hnext : outer ≠ [] → GoesOn next) :
    grammar.Feeds next (Grammar.due .filling outer) ts (grammar.close e outer) := by
  match he with
  | .leaf hspells =>
    obtain ⟨t, rfl, ht⟩ := List.map_eq_singleton_iff.mp hts
    have hsign : t.lexeme.sign? = none := ht ▸ hspells.sign?_eq_none
    exact .single (step_operand hnext hsign (start_eq_leaf_iff.mpr ⟨_, ht, hspells⟩))
  | @Denotes.group items es _ op hs hsign haccepts =>
    obtain ⟨front, back, rfl, hfront, hback⟩ := List.map_eq_append_iff.mp hts
    obtain ⟨opening, inner, rfl, hopening, hinner⟩ := List.map_eq_cons_iff.mp hfront
    obtain ⟨sign, rest, rfl, rfl, hrest⟩ := List.map_eq_cons_iff.mp hback
    obtain ⟨closing, rfl, hclosing⟩ := List.map_eq_singleton_iff.mp hrest
    have hopen : outer ≠ [] → GoesOn ((inner ++ [sign, closing]).head?.or next) := by
      intro houter
      have hstarts : Starts (items ++ [sign.lexeme, closing.lexeme]) :=
        hs.starts.append (starts_sign hsign)
      exact hstarts.goesOn (by simp [hinner]) (hnext houter)
    have hstep := step_operand hopen (by rw [hopening]; rfl) (start_eq_group_iff.mpr hopening)
    have hitems := hs.feeds hinner outer (goesOn_sign hsign)
    have hlast : ¬ GoesOn (some closing) := by simp [GoesOn, hclosing]
    refine .cons hstep (hitems.append (.cons (step_last_sign hlast hsign ?_) (.single ?_)))
    · rwa [List.length_reverse]
    · rw [step_closing hclosing, List.reverse_reverse]

/-- In a group that has just been opened, the lexemes of items are read to what they leave. -/
theorem Stacks.feeds {ls : List Lexeme} {es : List Expr} (hs : Stacks ls es) {ts : List Token}
    (hts : ts.map Token.lexeme = ls) (outer : List (List Expr)) {next : Option Token}
    (hnext : GoesOn next) :
    grammar.Feeds next (.inside (.filling []) outer) ts (.inside (.filling es.reverse) outer) := by
  match hs with
  | .nil =>
    obtain rfl := List.map_eq_nil_iff.mp hts
    exact .nil
  | @Stacks.operand items ls es e hs he =>
    obtain ⟨first, last, rfl, hfirst, hlast⟩ := List.map_eq_append_iff.mp hts
    have hitems := hs.feeds hfirst outer (he.starts.goesOn hlast hnext)
    have hoperand := he.feeds hlast (es.reverse :: outer) fun _ => hnext
    rw [List.reverse_append]
    exact hitems.append hoperand
  | .fixed hs hsign hop =>
    obtain ⟨first, last, rfl, hfirst, hlast⟩ := List.map_eq_append_iff.mp hts
    obtain ⟨sign, rfl, rfl⟩ := List.map_eq_singleton_iff.mp hlast
    have hitems := hs.feeds hfirst outer (goesOn_sign hsign)
    rw [List.reverse_append]
    exact hitems.append (.single (step_inside_sign hnext hsign (applyInside_fixed _ hop)))
  | .variadic hs hsign hop =>
    obtain ⟨first, last, rfl, hfirst, hlast⟩ := List.map_eq_append_iff.mp hts
    obtain ⟨sign, rfl, rfl⟩ := List.map_eq_singleton_iff.mp hlast
    have hitems := hs.feeds hfirst outer (goesOn_sign hsign)
    exact hitems.append (.single (step_inside_sign hnext hsign (applyInside_variadic _ hop)))
end

theorem feeds_iff :
    grammar.Feeds none .awaiting ts (.finished e) ↔ Denotes (ts.map Token.lexeme) e :=
  ⟨grammar_sound.makes, fun h => h.feeds rfl [] fun hne => absurd rfl hne⟩

theorem Denotes.unique {e' : Expr} (h : Denotes ls e) (h' : Denotes ls e') : e = e' := by
  have hts : (ls.map (Token.mk · 0)).map Token.lexeme = ls := by simp [Function.comp_def]
  rw [← hts, ← feeds_iff] at h h'
  exact h.unique h'

/-- With no limit on its depth, a text is read to an expression exactly where its lexemes make it
up, and no lexemes make up two expressions. -/
theorem read_eq_ok_iff_denotes (width : Nat) (text : String) (e : Expr) :
    ((Reader.mk .signLast width none).read text = .ok e ↔
      Denotes ((Token.scan text.toList).map Token.lexeme) e) ∧
    ∀ (ls : List Lexeme) (e e' : Expr), Denotes ls e → Denotes ls e' → e = e' := by
  refine ⟨?_, fun _ _ _ => Denotes.unique⟩
  rw [← feeds_iff, ← Grammar.read_eq_ok_iff]
  exact except_mapError_eq_ok

end Fluxion.Reading.SignLast
