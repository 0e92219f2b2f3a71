import Fluxion.Reader
import Fluxion.Proofs.Reading.Nesting

namespace Fluxion.Reading.SignFirst

mutual
/-- Lexemes that make up an expression: a word, or a group of a sign and as
many expressions as the sign takes. -/
inductive Derives : List Lexeme → Expr → Prop
  | leaf {chars : List Char} {l : Leaf} : Spells chars l → Derives [.word chars] (.leaf l)
  | group {sign : Lexeme} {op : Operator} {ls : List Lexeme} {es : List Expr} :
      sign.sign? = some op → op.arity.accepts es.length → DerivesAll ls es →
      Derives (.opening :: sign :: ls ++ [.closing]) (.operation op es)

/-- Lexemes that make up some expressions, one after the other. -/
inductive DerivesAll : List Lexeme → List Expr → Prop
  | nil : DerivesAll [] []
  | cons {ls ms : List Lexeme} {e : Expr} {es : List Expr} :
      Derives ls e → DerivesAll ms es → DerivesAll (ls ++ ms) (e :: es)
end

theorem DerivesAll.snoc {ls ms : List Lexeme} {es : List Expr} {e : Expr} (hes : DerivesAll ls es)
    (he : Derives ms e) : DerivesAll (ls ++ ms) (es ++ [e]) := by
  induction es generalizing ls with
  | nil =>
    cases hes
    simpa using DerivesAll.cons he .nil
  | cons first es ih =>
    cases hes with
    | cons hfirst hrest =>
      rw [List.append_assoc]
      exact .cons hfirst (ih hrest)

variable {t : Token} {ts : List Token} {next : Option Token} {c : Call}
  {outer : List Call} {e : Expr} {ls ms : List Lexeme} {cause : ParseCause}

theorem missing?_eq_none_iff :
    c.missing? = none ↔ ∀ n, c.op.arity = .fixed n → n ≤ c.operands.length := by
  unfold Call.missing?
  cases c.op.arity with
  | fixed n => simp [Arity.fixed?]
  | variadic => simp [Arity.fixed?]

theorem missing?_eq_some_iff : c.missing? = some cause ↔ ∃ n, c.op.arity = .fixed n ∧
    c.operands.length < n ∧ cause = .operandCount c.op.sign n c.operands.length := by
  unfold Call.missing?
  cases c.op.arity with
  | variadic => simp [Arity.fixed?]
  | fixed n => by_cases hlt : c.operands.length < n <;> simp [Arity.fixed?, hlt, eq_comm]

theorem advance_unnamed_eq_ok_iff {move : Move Group Call} :
    grammar.advance .unnamed t next = .ok move ↔
      ∃ op, t.lexeme.sign? = some op ∧ move = .stay (.call ⟨op, []⟩) := by
  change Group.unnamed.advance t = _ ↔ _
  unfold Group.advance
  cases t.lexeme.sign? with
  | none => simp
  | some op => simpa using eq_comm

/-- A call takes another operand while it has room, and closes once it has all that its sign
takes. -/
theorem advance_call_eq_ok_iff {move : Move Group Call} :
    grammar.advance (.call c) t next = .ok move ↔
      (t.lexeme ≠ .closing ∧ c.op.arity.hasRoom c.operands.length ∧
        ∃ first, start t = .ok first ∧ move = grammar.taken c first) ∨
      (t.lexeme = .closing ∧ c.missing? = none ∧ move = .close c.expr) := by
  change c.advance t = _ ↔ _
  unfold Call.advance
  split
  · rename_i h
    cases start t with
    | error cause => simp [h.1]
    | ok first => cases first <;> simp [h, Grammar.taken, grammar, eq_comm]
  · rename_i h
    unfold Call.closeAt
    by_cases ht : t.lexeme = .closing
    · cases c.missing? with
      | none => simpa [ht] using eq_comm
      | some cause => simp [ht]
    · have hroom : ¬ c.op.arity.hasRoom c.operands.length := fun hroom => h ⟨ht, hroom⟩
      cases c.missing? with
      | none => simp [ht, hroom]
      | some cause => simp [ht, hroom]

theorem advance_unnamed_eq_error (h : grammar.advance .unnamed t next = .error cause) :
    cause = .signExpected t.text := by
  change Group.unnamed.advance t = _ at h
  unfold Group.advance at h
  cases hsign : t.lexeme.sign? with
  | some op =>
    rw [hsign] at h
    cases h
  | none =>
    rw [hsign] at h
    exact (Except.error.inj h).symm

/-- A call refuses an operand, closes too early, or cannot take another operand. -/
theorem advance_call_eq_error (h : grammar.advance (.call c) t next = .error cause) :
    start t = .error cause ∨ (t.lexeme = .closing ∧ c.missing? = some cause) ∨
      (t.lexeme ≠ .closing ∧ cause = .unclosed t.text) := by
  change c.advance t = _ at h
  unfold Call.advance at h
  split at h
  · cases hstart : start t with
    | ok first =>
      rw [hstart] at h
      cases first <;> cases h
    | error cause' =>
      rw [hstart] at h
      obtain rfl := Except.error.inj h
      exact .inl rfl
  · rename_i hfull
    unfold Call.closeAt at h
    cases hmissing : c.missing? with
    | some cause' =>
      rw [hmissing] at h
      obtain rfl := Except.error.inj h
      obtain ⟨n, hn, hlt, -⟩ := missing?_eq_some_iff.mp hmissing
      have hroom : c.op.arity.hasRoom c.operands.length := by
        refine Arity.hasRoom_iff.mpr fun m hm => ?_
        obtain rfl := Arity.fixed.inj (hn.symm.trans hm)
        exact hlt
      have ht : t.lexeme = .closing := Decidable.of_not_not fun hne => hfull ⟨hne, hroom⟩
      exact .inr (.inl ⟨ht, rfl⟩)
    | none =>
      simp only [hmissing] at h
      split at h
      · cases h
      · rename_i hne
        obtain rfl := Except.error.inj h
        exact .inr (.inr ⟨hne, rfl⟩)

/-- The lexemes that a call was read from: its parenthesis, its sign, and operands that fit. -/
structure Call.ReadFrom (c : Call) (ls : List Lexeme) : Prop where
  lexemes : ∃ sign ms, ls = .opening :: sign :: ms ∧ sign.sign? = some c.op ∧
    DerivesAll ms c.operands.reverse
  fits : ∀ n, c.op.arity = .fixed n → c.operands.length ≤ n

theorem Call.ReadFrom.add (hc : c.ReadFrom ls) (hroom : c.op.arity.hasRoom c.operands.length)
    (he : Derives ms e) : (c.add e).ReadFrom (ls ++ ms) := by
  obtain ⟨sign, body, rfl, hsign, hbody⟩ := hc.lexemes
  refine ⟨⟨sign, body ++ ms, by simp, hsign, ?_⟩, fun n hn => ?_⟩
  · simpa [Call.add] using hbody.snoc he
  · exact Arity.hasRoom_iff.mp hroom n hn

theorem Call.ReadFrom.derives (hc : c.ReadFrom ls) (hmissing : c.missing? = none) :
    Derives (ls ++ [.closing]) c.expr := by
  obtain ⟨sign, body, rfl, hsign, hbody⟩ := hc.lexemes
  refine .group hsign ?_ hbody
  rw [List.length_reverse, Arity.accepts_iff]
  intro n hn
  exact Nat.le_antisymm (hc.fits n hn) (missing?_eq_none_iff.mp hmissing n hn)

def Group.ReadFrom : Group → List Lexeme → Prop
  | .unnamed, ls => ls = [.opening]
  | .call c, ls => c.ReadFrom ls

/-- A call waits for an operand only if it has room for it. -/
def Call.Waits (c : Call) (ls : List Lexeme) : Prop :=
  c.ReadFrom ls ∧ c.op.arity.hasRoom c.operands.length

theorem grammar_sound : Grammar.Sound Derives Group.ReadFrom Call.Waits grammar where
  leaf := .leaf
  opened := rfl
  resume := fun ⟨hc, hroom⟩ he => hc.add hroom he
  stay := by
    intro group after ls t next hg hmove
    cases group with
    | unnamed =>
      obtain rfl := hg
      obtain ⟨op, hsign, hop⟩ := advance_unnamed_eq_ok_iff.mp hmove
      obtain rfl := Move.stay.inj hop
      exact ⟨⟨t.lexeme, [], rfl, hsign, .nil⟩, fun n _ => Nat.zero_le n⟩
    | call c =>
      obtain ⟨-, hroom, first, hstart, hfirst⟩ | ⟨-, -, hclose⟩ :=
        advance_call_eq_ok_iff.mp hmove
      · cases first with
        | group => cases hfirst
        | leaf l =>
          obtain rfl := Move.stay.inj hfirst
          obtain ⟨chars, hword, hspells⟩ := start_eq_leaf_iff.mp hstart
          rw [hword]
          exact Call.ReadFrom.add hg hroom (.leaf hspells)
      · cases hclose
  descend := by
    intro group held ls t next hg hmove
    cases group with
    | unnamed =>
      obtain ⟨op, -, hop⟩ := advance_unnamed_eq_ok_iff.mp hmove
      cases hop
    | call c =>
      obtain ⟨-, hroom, first, hstart, hfirst⟩ | ⟨-, -, hclose⟩ :=
        advance_call_eq_ok_iff.mp hmove
      · cases first with
        | group =>
          obtain rfl := Move.descend.inj hfirst
          exact ⟨start_eq_group_iff.mp hstart, hg, hroom⟩
        | leaf l => cases hfirst
      · cases hclose
  close := by
    intro group e ls t next hg hmove
    cases group with
    | unnamed =>
      obtain ⟨op, -, hop⟩ := advance_unnamed_eq_ok_iff.mp hmove
      cases hop
    | call c =>
      obtain ⟨-, -, first, -, hfirst⟩ | ⟨ht, hmissing, hclose⟩ :=
        advance_call_eq_ok_iff.mp hmove
      · cases first <;> cases hfirst
      · obtain rfl := Move.close.inj hclose
        rw [ht]
        exact Call.ReadFrom.derives hg hmissing

theorem step_operand {first : Start}
    (hroom : ∀ c ∈ outer.head?, c.op.arity.hasRoom c.operands.length)
    (hstart : start t = .ok first) :
    grammar.step (Grammar.due .call outer) t next = .ok (grammar.started outer first) := by
  have ht : t.lexeme ≠ .closing := by
    intro hc
    simp [start, hc] at hstart
  exact Grammar.step_due hstart fun c hc =>
    advance_call_eq_ok_iff.mpr (.inl ⟨ht, hroom c hc, first, hstart, rfl⟩)

theorem step_sign {op : Operator} (hsign : t.lexeme.sign? = some op) :
    grammar.step (.inside .unnamed outer) t next = .ok (.inside (.call ⟨op, []⟩) outer) := by
  rw [Grammar.step_inside, advance_unnamed_eq_ok_iff.mpr ⟨op, hsign, rfl⟩]
  rfl

theorem step_closing (ht : t.lexeme = .closing) (hc : c.missing? = none) :
    grammar.step (.inside (.call c) outer) t next = .ok (grammar.close c.expr outer) := by
  rw [Grammar.step_inside, advance_call_eq_ok_iff.mpr (.inr ⟨ht, hc, rfl⟩)]
  rfl

mutual
/-- Where an operand is due, the lexemes of an expression are read to it. -/
theorem Derives.feeds {ls : List Lexeme} {e : Expr} (he : Derives ls e) {ts : List Token}
    (hts : ts.map Token.lexeme = ls) {outer : List Call}
    (hroom : ∀ c ∈ outer.head?, c.op.arity.hasRoom c.operands.length) (next : Option Token) :
    grammar.Feeds next (Grammar.due .call outer) ts (grammar.close e outer) := by
  match he with
  | .leaf hspells =>
    obtain ⟨t, rfl, ht⟩ := List.map_eq_singleton_iff.mp hts
    exact .single (step_operand hroom (start_eq_leaf_iff.mpr ⟨_, ht, hspells⟩))
  | @Derives.group _ op _ es hsign haccepts hes =>
    obtain ⟨front, back, rfl, hfront, hback⟩ := List.map_eq_append_iff.mp hts
    obtain ⟨opening, inner, rfl, hopening, hinner⟩ := List.map_eq_cons_iff.mp hfront
    obtain ⟨sign, body, rfl, rfl, hbody⟩ := List.map_eq_cons_iff.mp hinner
    obtain ⟨closing, rfl, hclosing⟩ := List.map_eq_singleton_iff.mp hback
    have hcount : ∀ n, op.arity = .fixed n → es.length = n := Arity.accepts_iff.mp haccepts
    have hread :=
      hes.feeds hbody ⟨op, []⟩ (fun n hn => by simp [hcount n hn]) outer (some closing)
    rw [List.append_nil] at hread
    have hmissing : Call.missing? ⟨op, es.reverse⟩ = none :=
      missing?_eq_none_iff.mpr fun n hn => by simp [hcount n hn]
    refine .cons (step_operand hroom (start_eq_group_iff.mpr hopening)) (.cons (step_sign hsign) ?_)
    refine hread.append (.single ?_)
    rw [step_closing hclosing hmissing, Call.expr, List.reverse_reverse]

/-- In a call with room for them, the lexemes of some expressions are read to its next operands. -/
theorem DerivesAll.feeds {ls : List Lexeme} {es : List Expr} (hes : DerivesAll ls es)
    {ts : List Token} (hts : ts.map Token.lexeme = ls) (c : Call)
    (hfits : ∀ n, c.op.arity = .fixed n → c.operands.length + es.length ≤ n)
    (outer : List Call) (next : Option Token) :
    grammar.Feeds next (.inside (.call c) outer) ts
      (.inside (.call ⟨c.op, es.reverse ++ c.operands⟩) outer) := by
  match hes with
  | .nil =>
    obtain rfl := List.map_eq_nil_iff.mp hts
    exact .nil
  | @DerivesAll.cons _ _ e es hfirst hrest =>
    obtain ⟨first, rest, rfl, htsfirst, htsrest⟩ := List.map_eq_append_iff.mp hts
    have hlt : ∀ n, c.op.arity = .fixed n → c.operands.length + es.length < n := by
      intro n hn
      have hle := hfits n hn
      rw [List.length_cons] at hle
      omega
    have hroom : ∀ d ∈ (c :: outer).head?, d.op.arity.hasRoom d.operands.length := by
      intro d hd
      obtain rfl : c = d := by simpa using hd
      refine Arity.hasRoom_iff.mpr fun n hn => ?_
      have hlt := hlt n hn
      omega
    have hfits' : ∀ n, c.op.arity = .fixed n → (c.add e).operands.length + es.length ≤ n := by
      intro n hn
      have hlt := hlt n hn
      simp only [Call.add, List.length_cons]
      omega
    have hone := hfirst.feeds htsfirst hroom (rest.head?.or next)
    have hall := hrest.feeds htsrest (c.add e) hfits' outer next
    rw [List.reverse_cons, List.append_assoc]
    exact hone.append hall
end

theorem feeds_iff :
    grammar.Feeds none .awaiting ts (.finished e) ↔ Derives (ts.map Token.lexeme) e := by
  refine ⟨grammar_sound.makes, fun h => ?_⟩
  have hroom : ∀ c ∈ ([] : List Call).head?, c.op.arity.hasRoom c.operands.length := by simp
  exact h.feeds rfl hroom none

theorem Derives.unique {e' : Expr} (h : Derives ls e) (h' : Derives ls e') : e = e' := by
  have hts : (ls.map (Token.mk · 0)).map Token.lexeme = ls := by simp [Function.comp_def]
  rw [← hts, ← feeds_iff] at h h'
  exact h.unique h'

/-- With no limit on its depth, a text is read to an expression exactly where its lexemes make it
up, and no lexemes make up two expressions. -/
theorem read_eq_ok_iff_derives (width : Nat) (text : String) (e : Expr) :
    ((Reader.mk .signFirst width none).read text = .ok e ↔
      Derives ((Token.scan text.toList).map Token.lexeme) e) ∧
    ∀ (ls : List Lexeme) (e e' : Expr), Derives ls e → Derives ls e' → e = e' := by
  refine ⟨?_, fun _ _ _ => Derives.unique⟩
  rw [← feeds_iff, ← Grammar.read_eq_ok_iff]
  exact except_mapError_eq_ok

end Fluxion.Reading.SignFirst
