import Fluxion.Reading.Grammar
import Fluxion.Proofs.Number.Layout
import Fluxion.Proofs.Number.Numeral
import Fluxion.Proofs.Reading.Scan

namespace Fluxion

/-- A word is the name of a variable or spells a number. -/
inductive Spells : List Char → Leaf → Prop
  | variable (v : Variable) : Spells v.name.toList (.var v)
  | number {chars : List Char} {value : Float} :
      Numeral.read? chars = some value → value.isNaN = false → Spells chars (.constant value)

theorem Numeral.read?_name (v : Variable) : Numeral.read? v.name.toList = none := by
  cases v <;> decide +kernel

theorem Variable.eq_of_ofName? {chars : List Char} {v : Variable}
    (hv : ofName? (String.ofList chars) = some v) : chars = v.name.toList := by
  have hname : (v.name == String.ofList chars) = true := by simpa using List.find?_some hv
  rw [beq_iff_eq.mp hname, String.toList_ofList]

theorem ofWord?_eq_some_iff {chars : List Char} {l : Leaf} :
    Leaf.ofWord? chars = some l ↔ Spells chars l := by
  unfold Leaf.ofWord?
  constructor
  · intro h
    rcases Option.or_eq_some_iff.mp h with hv | ⟨-, hn⟩
    · obtain ⟨v, hname, rfl⟩ := Option.map_eq_some_iff.mp hv
      exact Variable.eq_of_ofName? hname ▸ .variable v
    · obtain ⟨value, hread, rfl⟩ := Option.map_eq_some_iff.mp hn
      exact .number hread (Numeral.isNaN_of_read hread)
  · intro h
    cases h with
    | «variable» v => simp
    | number hn _ =>
      cases hv : Variable.ofName? (String.ofList chars) with
      | none => simp [hn]
      | some v =>
        rw [Variable.eq_of_ofName? hv, Numeral.read?_name] at hn
        cases hn

theorem ofWord?_sign {op : Operator} (hop : op ∈ Operator.vocabulary) :
    Leaf.ofWord? op.sign.toList = none := by
  revert op
  decide +kernel

theorem not_spells_closing (l : Leaf) : ¬ Spells [')'] l := by
  have hnone : Leaf.ofWord? [')'] = none := by decide +kernel
  rw [← ofWord?_eq_some_iff, hnone]
  exact nofun

theorem isWord_variable (v : Variable) : Token.IsWord v.name.toList := by
  cases v <;> decide +kernel

theorem plain_of_isDigit {c : Char} (hc : c.isDigit) :
    isBlank c = false ∧ c ≠ '(' ∧ c ≠ ')' := by
  have hrange := toNat_of_isDigit hc
  refine ⟨?_, ?_, ?_⟩
  · simp [isBlank, blankRanges]
    omega
  · rintro rfl
    revert hrange
    decide
  · rintro rfl
    revert hrange
    decide

/-- A count leaves a sign a word, whether a text can name it or not. -/
theorem isWord_sign (op : Operator) : Token.IsWord op.sign.toList := by
  obtain ⟨p, count?⟩ := op
  have hname : Token.IsWord p.name.toList := by cases p <;> decide
  cases count? with
  | none => simpa [Operator.sign] using hname
  | some count =>
    refine ⟨by simp [Operator.sign, hname.ne_nil], fun c hc => ?_⟩
    rw [Operator.sign, String.toList_append, List.mem_append] at hc
    rcases hc with hc | hc
    · exact hname.plain c hc
    · refine plain_of_isDigit
        (Nat.isDigit_of_mem_toDigits (b := 10) (n := count) (by decide) (by decide) ?_)
      simpa using hc

theorem mem_vocabulary_of_sign? {op : Operator} {l : Lexeme} (h : l.sign? = some op) :
    op ∈ Operator.vocabulary ∧ op.sign = String.ofList l.chars := by
  cases l with
  | opening => cases h
  | closing => cases h
  | word chars =>
    have hfind : Operator.vocabulary.find? (·.sign == String.ofList chars) = some op := h
    have hsign : (op.sign == String.ofList chars) = true := by simpa using List.find?_some hfind
    exact ⟨List.mem_of_find?_eq_some hfind, beq_iff_eq.mp hsign⟩

/-- What is an operand is not a sign. -/
theorem Spells.sign?_eq_none {chars : List Char} {l : Leaf} (h : Spells chars l) :
    (Lexeme.word chars).sign? = none := by
  cases hs : (Lexeme.word chars).sign? with
  | none => rfl
  | some op =>
    obtain ⟨hmem, hsign⟩ := mem_vocabulary_of_sign? hs
    have hnone := ofWord?_sign hmem
    rw [hsign, Lexeme.chars, String.toList_ofList, ofWord?_eq_some_iff.mpr h] at hnone
    cases hnone

end Fluxion
