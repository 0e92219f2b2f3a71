import Fluxion.Proofs.Outcome
import Fluxion.Proofs.Reading.Word

namespace Fluxion.Reading

variable {Group Held : Type} {g : Grammar Group Held} {t : Token} {ts us : List Token}
  {next : Option Token} {p q r : Progress Group Held} {e e' : Expr} {l : Leaf} {cause : ParseCause}

theorem start_eq_group_iff : start t = .ok .group ↔ t.lexeme = .opening := by
  unfold start
  cases t.lexeme with
  | opening => simp
  | closing => simp
  | word chars => cases hw : Leaf.ofWord? chars <;> simp [hw]

theorem start_eq_leaf_iff :
    start t = .ok (.leaf l) ↔ ∃ chars, t.lexeme = .word chars ∧ Spells chars l := by
  unfold start
  cases t.lexeme with
  | opening => simp
  | closing => simp
  | word chars =>
    simp only [Lexeme.word.injEq, exists_eq_left', ← ofWord?_eq_some_iff]
    cases Leaf.ofWord? chars <;> simp

/-- A token that starts no operand is unexpected. -/
theorem start_eq_error (h : start t = .error cause) :
    cause = .unexpected t.text ∧ t.lexeme ≠ .opening ∧ ∀ l, ¬ Spells t.lexeme.chars l := by
  unfold start at h
  cases hl : t.lexeme with
  | opening =>
    rw [hl] at h
    cases h
  | closing =>
    rw [hl] at h
    obtain rfl := Except.error.inj h
    exact ⟨rfl, nofun, not_spells_closing⟩
  | word chars =>
    simp only [hl] at h
    split at h
    · cases h
    · rename_i hnone
      obtain rfl := Except.error.inj h
      refine ⟨rfl, nofun, fun l hspells => ?_⟩
      rw [Lexeme.chars, ← ofWord?_eq_some_iff, hnone] at hspells
      cases hspells

namespace Grammar

/-- A group was read: it is the whole text, or an operand of the group around it. -/
def close (g : Grammar Group Held) (e : Expr) : List Held → Progress Group Held
  | [] => .finished e
  | held :: outer => .inside (g.resume held e) outer

/-- Where a move leads. -/
def after (g : Grammar Group Held) (outer : List Held) : Move Group Held → Progress Group Held
  | .stay group => .inside group outer
  | .descend held => .inside g.opened (held :: outer)
  | .close e => g.close e outer

theorem step_inside (group : Group) (outer : List Held) :
    g.step (.inside group outer) t next = (g.advance group t next).map (g.after outer) := by
  simp only [step]
  cases g.advance group t next with
  | error cause => simp [Except.map]
  | ok move => cases move <;> cases outer <;> simp [Except.map, after, close]

/-- A token starts a group or is an operand, or a group takes it. -/
theorem step_eq_ok (h : g.step p t next = .ok q) :
    (p = .awaiting ∧ t.lexeme = .opening ∧ q = .inside g.opened []) ∨
    (∃ chars l, p = .awaiting ∧ t.lexeme = .word chars ∧ Spells chars l ∧
      q = .finished (.leaf l)) ∨
    ∃ group outer move, p = .inside group outer ∧ g.advance group t next = .ok move ∧
      q = g.after outer move := by
  cases p with
  | awaiting =>
    simp only [step] at h
    split at h
    · rename_i hstart
      obtain rfl := Except.ok.inj h
      exact .inl ⟨rfl, start_eq_group_iff.mp hstart, rfl⟩
    · rename_i l hstart
      obtain rfl := Except.ok.inj h
      obtain ⟨chars, hword, hspells⟩ := start_eq_leaf_iff.mp hstart
      exact .inr (.inl ⟨chars, l, rfl, hword, hspells, rfl⟩)
    · cases h
  | inside group outer =>
    rw [step_inside] at h
    obtain ⟨move, hmove, rfl⟩ := except_map_eq_ok.mp h
    exact .inr (.inr ⟨group, outer, move, rfl, hmove, rfl⟩)
  | finished e => cases h

/-- A token starts no operand where one is due, is refused by a group,
or stands behind the expression. -/
theorem step_eq_error (h : g.step p t next = .error cause) : start t = .error cause ∨
    (∃ group outer, p = .inside group outer ∧ g.advance group t next = .error cause) ∨
    ∃ e, p = .finished e ∧ cause = .trailing t.text := by
  cases p with
  | awaiting =>
    simp only [step] at h
    split at h
    · cases h
    · cases h
    · rename_i hstart
      obtain rfl := Except.error.inj h
      exact .inl hstart
  | inside group outer =>
    rw [step_inside] at h
    exact .inr (.inl ⟨group, outer, rfl, except_map_eq_error.mp h⟩)
  | finished e =>
    obtain rfl := Except.error.inj h
    exact .inr (.inr ⟨e, rfl, rfl⟩)

/-- The steps from one progress to another over some tokens, where
`next` is the token behind them. -/
inductive Feeds (g : Grammar Group Held) (next : Option Token) :
    Progress Group Held → List Token → Progress Group Held → Prop
  | nil {p : Progress Group Held} : Feeds g next p [] p
  | cons {p q r : Progress Group Held} {t : Token} {ts : List Token} :
      g.step p t (ts.head?.or next) = .ok q → Feeds g next q ts r → Feeds g next p (t :: ts) r

theorem Feeds.single (h : g.step p t next = .ok q) : g.Feeds next p [t] q := .cons h .nil

theorem Feeds.append (hts : g.Feeds (us.head?.or next) p ts q) (hus : g.Feeds next q us r) :
    g.Feeds next p (ts ++ us) r := by
  induction hts with
  | nil => exact hus
  | @cons _ _ _ t ts hstep _ ih =>
    refine .cons ?_ (ih hus)
    change g.step _ t ((ts ++ us).head?.or next) = _
    rw [List.head?_append, Option.or_assoc]
    exact hstep

theorem finish_eq_ok_iff : g.finish p = .ok e ↔ p = .finished e := by
  cases p <;> simp [finish]

theorem run_eq_ok_iff (endPosition : Nat) :
    g.run none endPosition p ts = .ok e ↔ g.Feeds none p ts (.finished e) := by
  have hexcess (p : Progress Group Held) : p.excess? none = none := rfl
  induction ts generalizing p with
  | nil =>
    simp only [run, hexcess]
    rw [except_mapError_eq_ok, finish_eq_ok_iff]
    constructor
    · rintro rfl
      exact .nil
    · intro h
      cases h
      rfl
  | cons t ts ih =>
    simp only [run, hexcess]
    cases hstep : g.step p t ts.head? with
    | error cause =>
      simp only [reduceCtorEq, false_iff]
      intro h
      cases h with
      | cons hok _ =>
        rw [Option.or_none, hstep] at hok
        cases hok
    | ok q =>
      refine ih.trans ?_
      constructor
      · intro h
        exact .cons (by rw [Option.or_none, hstep]) h
      · intro h
        cases h with
        | cons hok h =>
          rw [Option.or_none, hstep] at hok
          obtain rfl := Except.ok.inj hok
          exact h

theorem read_eq_ok_iff {source : List Char} :
    g.read none source = .ok e ↔ g.Feeds none .awaiting (Token.scan source) (.finished e) :=
  run_eq_ok_iff _

/-- No text is read to two expressions. -/
theorem Feeds.unique (h : g.Feeds none p ts (.finished e)) (h' : g.Feeds none p ts (.finished e')) :
    e = e' := by
  have hrun := (run_eq_ok_iff 0).mpr h
  rw [(run_eq_ok_iff 0).mpr h'] at hrun
  exact (Except.ok.inj hrun).symm

end Grammar
end Fluxion.Reading
