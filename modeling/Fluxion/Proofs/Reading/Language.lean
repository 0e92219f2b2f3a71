import Fluxion.Proofs.Formed
import Fluxion.Proofs.Reading.Scan
import Fluxion.Proofs.Reading.SignFirst
import Fluxion.Proofs.Reading.SignLast

namespace Fluxion.Reading

variable {ls : List Lexeme} {e e' : Expr}

/-- The lexemes make up the expression. -/
def Makes : Notation → List Lexeme → Expr → Prop
  | .signFirst => SignFirst.Derives
  | .signLast => SignLast.Denotes

theorem Makes.unique {form : Notation} (h : Makes form ls e) (h' : Makes form ls e') : e = e' := by
  cases form with
  | signFirst => exact SignFirst.Derives.unique h h'
  | signLast => exact SignLast.Denotes.unique h h'

theorem read_eq_ok_iff (form : Notation) (width : Nat) (text : String) :
    (Reader.mk form width none).read text = .ok e ↔ Makes form (Token.lexemes text.toList) e := by
  cases form with
  | signFirst =>
    exact except_mapError_eq_ok.trans (Grammar.read_eq_ok_iff.trans SignFirst.feeds_iff)
  | signLast => exact except_mapError_eq_ok.trans (Grammar.read_eq_ok_iff.trans SignLast.feeds_iff)

/-- A word that can stand in a text that is read. -/
def Meant (chars : List Char) : Prop :=
  (∃ l, Spells chars l) ∨ ∃ op, (Lexeme.word chars).sign? = some op

/-- All words of some lexemes can stand in a text that is read. -/
def AllMeant (ls : List Lexeme) : Prop := ∀ chars, .word chars ∈ ls → Meant chars

theorem AllMeant.append {ms : List Lexeme} (hls : AllMeant ls) (hms : AllMeant ms) :
    AllMeant (ls ++ ms) :=
  fun chars h => (List.mem_append.mp h).elim (hls chars) (hms chars)

theorem allMeant_leaf {chars : List Char} {l : Leaf} (h : Spells chars l) :
    AllMeant [.word chars] := by
  intro cs hcs
  obtain rfl := Lexeme.word.inj (List.mem_singleton.mp hcs)
  exact .inl ⟨l, h⟩

theorem allMeant_sign {sign : Lexeme} {op : Operator} (h : sign.sign? = some op) :
    AllMeant [sign] := by
  intro chars hchars
  rw [← List.mem_singleton.mp hchars] at h
  exact .inr ⟨op, h⟩

theorem allMeant_opening : AllMeant [.opening] := by simp [AllMeant]

theorem allMeant_closing : AllMeant [.closing] := by simp [AllMeant]

theorem takes_of_sign {sign : Lexeme} {op : Operator} {count : Nat} (h : sign.sign? = some op)
    (ha : op.arity.accepts count) : op.Takes count := ⟨.inl (mem_vocabulary_of_sign? h).1, ha⟩

namespace SignFirst

mutual
theorem Derives.allMeant {ls : List Lexeme} {e : Expr} : Derives ls e → AllMeant ls
  | .leaf h => allMeant_leaf h
  | .group hsign _ hes =>
    ((allMeant_opening.append (allMeant_sign hsign)).append hes.allMeant).append allMeant_closing

theorem DerivesAll.allMeant {ls : List Lexeme} {es : List Expr} : DerivesAll ls es → AllMeant ls
  | .nil => by simp [AllMeant]
  | .cons he hes => he.allMeant.append hes.allMeant
end

mutual
theorem Derives.formed {ls : List Lexeme} {e : Expr} : Derives ls e → e.Formed
  | .leaf _ => .leaf _
  | .group hsign haccepts hes => .operation (takes_of_sign hsign haccepts) hes.formed

theorem DerivesAll.formed {ls : List Lexeme} {es : List Expr} :
    DerivesAll ls es → ∀ e ∈ es, e.Formed
  | .nil => by simp
  | .cons he hes => List.forall_mem_cons.mpr ⟨he.formed, hes.formed⟩
end

end SignFirst

namespace SignLast

mutual
theorem Denotes.allMeant {ls : List Lexeme} {e : Expr} : Denotes ls e → AllMeant ls
  | .leaf h => allMeant_leaf h
  | .group hs hsign _ =>
    (allMeant_opening.append hs.allMeant).append ((allMeant_sign hsign).append allMeant_closing)

theorem Stacks.allMeant {ls : List Lexeme} {es : List Expr} : Stacks ls es → AllMeant ls
  | .nil => by simp [AllMeant]
  | .operand hs he => hs.allMeant.append he.allMeant
  | .fixed hs hsign _ => hs.allMeant.append (allMeant_sign hsign)
  | .variadic hs hsign _ => hs.allMeant.append (allMeant_sign hsign)
end

mutual
theorem Denotes.formed {ls : List Lexeme} {e : Expr} : Denotes ls e → e.Formed
  | .leaf _ => .leaf _
  | .group hs hsign haccepts => .operation (takes_of_sign hsign haccepts) hs.formed

theorem Stacks.formed {ls : List Lexeme} {es : List Expr} : Stacks ls es → ∀ e ∈ es, e.Formed
  | .nil => by simp
  | .operand hs he =>
    List.forall_mem_append.mpr ⟨hs.formed, List.forall_mem_singleton.mpr he.formed⟩
  | @Stacks.fixed _ es args _ op hs hsign hop => by
    obtain ⟨hes, hargs⟩ := List.forall_mem_append.mp hs.formed
    have haccepts : op.arity.accepts args.length := by simp [hop, Arity.accepts, Arity.fixed?]
    have hcall : (Term.operation op args).Formed := .operation (takes_of_sign hsign haccepts) hargs
    exact List.forall_mem_append.mpr ⟨hes, List.forall_mem_singleton.mpr hcall⟩
  | @Stacks.variadic _ es _ op hs hsign hop => by
    have haccepts : op.arity.accepts es.length := by simp [hop, Arity.accepts, Arity.fixed?]
    have hcall : (Term.operation op es).Formed :=
      .operation (takes_of_sign hsign haccepts) hs.formed
    exact List.forall_mem_singleton.mpr hcall
end

end SignLast

theorem Makes.allMeant {form : Notation} (h : Makes form ls e) : AllMeant ls := by
  cases form with
  | signFirst => exact SignFirst.Derives.allMeant h
  | signLast => exact SignLast.Denotes.allMeant h

theorem Makes.formed {form : Notation} (h : Makes form ls e) : e.Formed := by
  cases form with
  | signFirst => exact SignFirst.Derives.formed h
  | signLast => exact SignLast.Denotes.formed h

namespace Grammar

variable {Group Held : Type} {g : Grammar Group Held}

/-- What is read in spite of a limit is read with any other limit that is exceeded no sooner. -/
theorem run_of_run {limit limit' : Option Nat} {endPosition : Nat} {p : Progress Group Held}
    {ts : List Token}
    (hlimit : ∀ p : Progress Group Held, p.excess? limit = none → p.excess? limit' = none)
    (h : g.run limit endPosition p ts = .ok e) : g.run limit' endPosition p ts = .ok e := by
  induction ts generalizing p with
  | nil =>
    cases hexcess : p.excess? limit with
    | some depth => simp [run, hexcess] at h
    | none => simpa [run, hexcess, hlimit p hexcess] using h
  | cons t ts ih =>
    cases hexcess : p.excess? limit with
    | some depth => simp [run, hexcess] at h
    | none =>
      simp only [run, hexcess, hlimit p hexcess] at h ⊢
      cases hstep : g.step p t ts.head? with
      | error cause => simp [hstep] at h
      | ok q =>
        rw [hstep] at h
        exact ih h

end Grammar

theorem formed_of_readChars {r : Reader} {source : List Char} (h : r.readChars source = .ok e) :
    e.Formed := by
  obtain ⟨form, width, limit⟩ := r
  have hread : (Reader.mk form width none).readChars source = .ok e := by
    cases form <;>
      exact except_mapError_eq_ok.mpr
        (Grammar.run_of_run (fun _ _ => rfl) (except_mapError_eq_ok.mp h))
  have htext := (read_eq_ok_iff form width (String.ofList source)).mp
    (by rwa [Reader.read, String.toList_ofList])
  exact htext.formed

theorem formed_of_read {r : Reader} {text : String} (h : r.read text = .ok e) : e.Formed :=
  formed_of_readChars h

theorem formed_of_readBytes {r : Reader} {bytes : List UInt8} (h : r.readBytes bytes = .ok e) :
    e.Formed := by
  unfold Reader.readBytes at h
  split at h
  · exact formed_of_readChars h
  · cases h

end Fluxion.Reading
