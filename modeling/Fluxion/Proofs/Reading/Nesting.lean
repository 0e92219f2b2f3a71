import Fluxion.Proofs.Reading.Run

namespace Fluxion.Reading.Grammar

variable {Group Held : Type} {g : Grammar Group Held} {t : Token} {ts : List Token}
  {next : Option Token} {outer : List Held} {e : Expr} {ls ms : List Lexeme}
  {p q : Progress Group Held}

section Sound

variable (Makes : List Lexeme → Expr → Prop) (Inside : Group → List Lexeme → Prop)
  (Waits : Held → List Lexeme → Prop)

/-- A group keeps to a language: `Inside` relates it to the lexemes that were read since its
parenthesis, that one included, and `Waits` does so while an operand is read. -/
structure Sound (g : Grammar Group Held) : Prop where
  leaf : ∀ {chars : List Char} {l : Leaf}, Spells chars l → Makes [.word chars] (.leaf l)
  opened : Inside g.opened [.opening]
  resume : ∀ {held : Held} {ls ms : List Lexeme} {e : Expr}, Waits held ls → Makes ms e →
    Inside (g.resume held e) (ls ++ ms)
  stay : ∀ {group after : Group} {ls : List Lexeme} {t : Token} {next : Option Token},
    Inside group ls →
    g.advance group t next = .ok (.stay after) → Inside after (ls ++ [t.lexeme])
  descend : ∀ {group : Group} {held : Held} {ls : List Lexeme} {t : Token} {next : Option Token},
    Inside group ls → g.advance group t next = .ok (.descend held) →
    t.lexeme = .opening ∧ Waits held ls
  close : ∀ {group : Group} {e : Expr} {ls : List Lexeme} {t : Token} {next : Option Token},
    Inside group ls → g.advance group t next = .ok (.close e) → Makes (ls ++ [t.lexeme]) e

/-- The lexemes of all groups that wait for an operand. -/
inductive Waiting : List Held → List Lexeme → Prop
  | nil : Waiting [] []
  | cons {held : Held} {outer : List Held} {ls ms : List Lexeme} :
      Waiting outer ls → Waits held ms → Waiting (held :: outer) (ls ++ ms)

/-- The lexemes that a reading has got through. -/
def Consumed : Progress Group Held → List Lexeme → Prop
  | .awaiting, ls => ls = []
  | .inside group outer, ls =>
    ∃ before inner, ls = before ++ inner ∧ Waiting Waits outer before ∧ Inside group inner
  | .finished e, ls => Makes ls e

variable {Makes Inside Waits}

theorem Sound.consumed_close (hg : Sound Makes Inside Waits g) (hw : Waiting Waits outer ls)
    (he : Makes ms e) : Consumed Makes Inside Waits (g.close e outer) (ls ++ ms) := by
  cases hw with
  | nil => exact he
  | cons hw hheld =>
    rw [List.append_assoc]
    exact ⟨_, _, rfl, hw, hg.resume hheld he⟩

theorem Sound.consumed_step (hg : Sound Makes Inside Waits g) (hstep : g.step p t next = .ok q)
    (hp : Consumed Makes Inside Waits p ls) : Consumed Makes Inside Waits q (ls ++ [t.lexeme]) := by
  obtain ⟨rfl, ht, rfl⟩ | ⟨chars, l, rfl, ht, hspells, rfl⟩ |
    ⟨group, outer, move, rfl, hmove, rfl⟩ :=
    step_eq_ok hstep
  · subst ls
    rw [ht]
    exact ⟨[], _, rfl, .nil, hg.opened⟩
  · subst ls
    rw [ht]
    exact hg.leaf hspells
  · obtain ⟨before, inner, rfl, hw, hinner⟩ := hp
    cases move with
    | stay after =>
      rw [List.append_assoc]
      exact ⟨before, _, rfl, hw, hg.stay hinner hmove⟩
    | descend held =>
      obtain ⟨hopening, hheld⟩ := hg.descend hinner hmove
      rw [hopening]
      exact ⟨_, _, rfl, hw.cons hheld, hg.opened⟩
    | close e =>
      rw [List.append_assoc]
      exact hg.consumed_close hw (hg.close hinner hmove)

theorem Sound.consumed_feeds (hg : Sound Makes Inside Waits g) (h : g.Feeds next p ts q)
    (hp : Consumed Makes Inside Waits p ls) :
    Consumed Makes Inside Waits q (ls ++ ts.map Token.lexeme) := by
  induction h generalizing ls with
  | nil => simpa using hp
  | cons hstep _ ih => simpa using ih (hg.consumed_step hstep hp)

/-- What is read from start to end is in the language. -/
theorem Sound.makes (hg : Sound Makes Inside Waits g)
    (h : g.Feeds next .awaiting ts (.finished e)) : Makes (ts.map Token.lexeme) e := by
  have hstart : Consumed Makes Inside Waits (.awaiting : Progress Group Held) [] := rfl
  have hread := hg.consumed_feeds h hstart
  rwa [List.nil_append] at hread

end Sound

/-- The move of a group on a token that starts an operand. -/
def taken (g : Grammar Group Held) (held : Held) : Start → Move Group Held
  | .group => .descend held
  | .leaf l => .stay (g.resume held (.leaf l))

/-- An operand is due for the first of the groups that wait, or for the text itself. -/
def due (inner : Held → Group) : List Held → Progress Group Held
  | [] => .awaiting
  | held :: outer => .inside (inner held) outer

/-- Where a token leads that starts an operand. -/
def started (g : Grammar Group Held) (outer : List Held) : Start → Progress Group Held
  | .group => .inside g.opened outer
  | .leaf l => g.close (.leaf l) outer

theorem step_due {inner : Held → Group} {first : Start} (hstart : start t = .ok first)
    (htaken : ∀ held ∈ outer.head?, g.advance (inner held) t next = .ok (g.taken held first)) :
    g.step (due inner outer) t next = .ok (g.started outer first) := by
  cases outer with
  | nil => cases first <;> simp [due, step, hstart, started, close]
  | cons held outer =>
    rw [due, step_inside, htaken held (by simp)]
    cases first <;> rfl

end Fluxion.Reading.Grammar
