import Mathlib.Data.List.Induction
import Fluxion.Expr.Rendering
import Fluxion.Proofs.Number.Layout
import Fluxion.Proofs.Reading.Language

namespace Fluxion

open Token (IsWord Apart)

theorem isWord_leaf (l : Leaf) : IsWord l.text.toList := by
  cases l with
  | var v => exact isWord_variable v
  | constant x =>
    rw [Leaf.text, Layout.text, String.toList_ofList]
    have hletters : IsWord ['-', '.', 'N', 'a', 'i', 'n', 'f'] := by decide
    exact ⟨Layout.chars_ne_nil x,
      fun c hc => (Layout.mem_chars hc).elim plain_of_isDigit (hletters.plain c)⟩

namespace Expr

/-- The lexemes of an expression in a notation. -/
def lexemes : Notation → Expr → List Lexeme
  | .signFirst => Term.fold (fun l => [.word l.text.toList]) fun op lss =>
    .opening :: .word op.sign.toList :: lss.flatten ++ [.closing]
  | .signLast => Term.fold (fun l => [.word l.text.toList]) fun op lss =>
    .opening :: lss.flatten ++ [.word op.sign.toList, .closing]

@[simp] theorem lexemes_leaf (form : Notation) (l : Leaf) :
    lexemes form (.leaf l) = [.word l.text.toList] := by cases form <;> rfl

@[simp] theorem lexemes_signFirst (op : Operator) (es : List Expr) :
    lexemes .signFirst (.operation op es) =
      .opening :: .word op.sign.toList :: es.flatMap (lexemes .signFirst) ++ [.closing] := by
  simp [lexemes, List.flatMap_def]

@[simp] theorem lexemes_signLast (op : Operator) (es : List Expr) :
    lexemes .signLast (.operation op es) =
      .opening :: es.flatMap (lexemes .signLast) ++ [.word op.sign.toList, .closing] := by
  simp [lexemes, List.flatMap_def]

@[simp] theorem render_leaf (form : Notation) (l : Leaf) : render form (.leaf l) = l.text := by
  cases form <;> rfl

theorem toList_signFirst (op : Operator) (es : List Expr) :
    (render .signFirst (.operation op es)).toList =
      '(' :: (op.sign.toList ++
        (es.flatMap (fun e => ' ' :: (e.render .signFirst).toList) ++ [')'])) := by
  simp [render, signFirst, List.flatMap_map]

theorem toList_signLast (op : Operator) (es : List Expr) :
    (render .signLast (.operation op es)).toList =
      '(' :: (es.flatMap (fun e => (e.render .signLast).toList ++ [' ']) ++
        (op.sign.toList ++ [')'])) := by
  simp [render, signLast, List.flatMap_map]

theorem apart_operands (ts : List (List Char)) : Apart (ts.flatMap (' ' :: ·) ++ [')']) := by
  cases ts with
  | nil => exact Token.apart_closing
  | cons t ts => exact Token.apart_blank (by decide)

/-- Operands with a blank before each. -/
theorem lexemes_operands (ts : List (List Char)) :
    Token.lexemes (ts.flatMap (' ' :: ·) ++ [')']) = ts.flatMap Token.lexemes ++ [.closing] := by
  induction ts with
  | nil => exact Token.lexemes_closing []
  | cons t ts ih =>
    rw [List.flatMap_cons, List.append_assoc, List.cons_append, Token.lexemes_blank (by decide),
      Token.lexemes_append (apart_operands ts), ih, List.flatMap_cons, List.append_assoc]

/-- Operands with a blank after each. -/
theorem lexemes_items (ts : List (List Char)) (rest : List Char) :
    Token.lexemes (ts.flatMap (· ++ [' ']) ++ rest) =
      ts.flatMap Token.lexemes ++ Token.lexemes rest := by
  have hblank : isBlank ' ' := by decide
  induction ts with
  | nil => rfl
  | cons t ts ih =>
    rw [List.flatMap_cons, List.append_assoc, List.append_assoc, List.singleton_append,
      Token.lexemes_append (Token.apart_blank hblank), Token.lexemes_blank hblank, ih,
      List.flatMap_cons, List.append_assoc]

theorem lexemes_render (form : Notation) (e : Expr) :
    Token.lexemes (render form e).toList = e.lexemes form := by
  induction e using Term.induct with
  | onLeaf l =>
    rw [render_leaf, lexemes_leaf]
    exact Token.lexemes_word (isWord_leaf l)
  | onOperation op es ih =>
    have hsign := Token.lexemes_word (isWord_sign op)
    have hoperands : (es.map fun e => (render form e).toList).flatMap Token.lexemes =
        es.flatMap (lexemes form) := by
      rw [List.flatMap_map, List.flatMap_def, List.flatMap_def, List.map_congr_left ih]
    cases form with
    | signFirst =>
      have hrest := lexemes_operands (es.map fun e => (render .signFirst e).toList)
      have hapart := apart_operands (es.map fun e => (render .signFirst e).toList)
      rw [List.flatMap_map] at hrest hapart
      rw [toList_signFirst, Token.lexemes_opening, Token.lexemes_append hapart, hsign,
        hrest, hoperands, lexemes_signFirst]
      rfl
    | signLast =>
      have hrest :=
        lexemes_items (es.map fun e => (render .signLast e).toList) (op.sign.toList ++ [')'])
      rw [List.flatMap_map] at hrest
      rw [toList_signLast, Token.lexemes_opening, hrest, hoperands,
        Token.lexemes_append Token.apart_closing, hsign, Token.lexemes_closing, lexemes_signLast]
      rfl

/-- All numbers of an expression are numbers, and a text can name all its signs. -/
structure Readable (e : Expr) : Prop where
  numbers : ∀ x, Leaf.constant x ∈ e.leaves → x.isNaN = false
  signs : ∀ op ∈ e.operators, op.sign ≠ "sumsq" ∧ op.sign ≠ "distance"

theorem Readable.operand {op : Operator} {es : List Expr} {e : Expr}
    (h : Readable (.operation op es)) (he : e ∈ es) : e.Readable :=
  ⟨fun x hx => h.numbers x (Term.mem_leaves_operand he hx),
    fun o ho => h.signs o (Term.mem_operators_operand he ho)⟩

theorem mem_lexemes_operation {form : Notation} {op : Operator} {es : List Expr} {cs : List Char} :
    .word cs ∈ lexemes form (.operation op es) ↔
      cs = op.sign.toList ∨ ∃ e ∈ es, .word cs ∈ lexemes form e := by
  cases form with
  | signFirst => simp
  | signLast => simp [or_comm]

theorem leaf_mem_lexemes (form : Notation) {e : Expr} {l : Leaf} (hl : l ∈ e.leaves) :
    .word l.text.toList ∈ e.lexemes form := by
  induction e using Term.induct with
  | onLeaf l' =>
    obtain rfl : l = l' := by simpa using hl
    simp
  | onOperation op es ih =>
    rw [Term.leaves_operation] at hl
    obtain ⟨e, he, hl⟩ := List.mem_flatMap.mp hl
    exact mem_lexemes_operation.mpr (.inr ⟨e, he, ih e he hl⟩)

theorem sign_mem_lexemes (form : Notation) {e : Expr} {op : Operator} (hop : op ∈ e.operators) :
    .word op.sign.toList ∈ e.lexemes form := by
  induction e using Term.induct with
  | onLeaf l => simp at hop
  | onOperation o es ih =>
    rw [Term.operators_operation] at hop
    rcases List.mem_cons.mp hop with rfl | hop
    · exact mem_lexemes_operation.mpr (.inl rfl)
    · obtain ⟨e, he, hop⟩ := List.mem_flatMap.mp hop
      exact mem_lexemes_operation.mpr (.inr ⟨e, he, ih e he hop⟩)

end Expr

namespace Reading

open Fluxion.Expr (Readable)

theorem not_meant {chars : List Char} (hword : Leaf.ofWord? chars = none)
    (hsign : (Lexeme.word chars).sign? = none) : ¬ Meant chars := by
  rintro (⟨l, hl⟩ | ⟨op, hop⟩)
  · rw [ofWord?_eq_some_iff.mpr hl] at hword
    cases hword
  · rw [hop] at hsign
    cases hsign

theorem readable_of_makes {form : Notation} {e e' : Expr} (h : Makes form (e.lexemes form) e') :
    e.Readable where
  numbers := by
    intro x hx
    have hmeant := h.allMeant _ (Expr.leaf_mem_lexemes form hx)
    rw [← Bool.not_eq_true]
    intro hnan
    rw [Leaf.text, Layout.text, String.toList_ofList,
      Layout.chars_of_isNaN ((isNaN_iff x).mp hnan)] at hmeant
    exact not_meant (by decide +kernel) (by decide +kernel) hmeant
  signs := by
    intro op hop
    have hmeant := h.allMeant _ (Expr.sign_mem_lexemes form hop)
    constructor
    · intro hsign
      rw [hsign] at hmeant
      exact not_meant (by decide +kernel) (by decide +kernel) hmeant
    · intro hsign
      rw [hsign] at hmeant
      exact not_meant (by decide +kernel) (by decide +kernel) hmeant

variable {e : Expr} {op : Operator} {es : List Expr}

theorem spells_of_readable {l : Leaf} (h : Readable (.leaf l)) : Spells l.text.toList l := by
  cases l with
  | var v => exact .variable v
  | constant x =>
    have hx : x.isNaN = false := h.numbers x (by simp)
    rw [Leaf.text, Layout.text, String.toList_ofList]
    refine .number (Layout.read?_chars (Nat.le_of_not_lt fun hlt => ?_)) hx
    rw [(isNaN_iff x).mpr hlt] at hx
    cases hx

theorem sign?_of_readable (h : Readable (.operation op es)) (hop : op.Known) :
    (Lexeme.word op.sign.toList).sign? = some op := by
  obtain ⟨hsumsq, hdistance⟩ := h.signs op (by simp)
  rw [Lexeme.sign?, String.ofList_toList]
  rcases hop with hop | rfl | rfl
  · exact Operator.ofSign?_sign hop
  · exact absurd rfl hsumsq
  · exact absurd rfl hdistance

theorem SignFirst.derivesAll_flatMap (h : ∀ e ∈ es, Derives (e.lexemes .signFirst) e) :
    DerivesAll (es.flatMap (Expr.lexemes .signFirst)) es := by
  induction es with
  | nil => exact .nil
  | cons e es ih =>
    exact .cons (h e List.mem_cons_self) (ih fun d hd => h d (List.mem_cons_of_mem _ hd))

theorem SignLast.stacks_flatMap (h : ∀ e ∈ es, Denotes (e.lexemes .signLast) e) :
    Stacks (es.flatMap (Expr.lexemes .signLast)) es := by
  induction es using List.reverseRecOn with
  | nil => exact .nil
  | append_singleton es e ih =>
    rw [List.flatMap_append, List.flatMap_singleton]
    exact .operand (ih fun d hd => h d (List.mem_append_left _ hd)) (h e (by simp))

theorem makes_of_readable (form : Notation) (he : e.Formed) (hr : e.Readable) :
    Makes form (e.lexemes form) e := by
  induction he with
  | leaf l =>
    rw [Expr.lexemes_leaf]
    cases form with
    | signFirst => exact .leaf (spells_of_readable hr)
    | signLast => exact .leaf (spells_of_readable hr)
  | @operation op es hop _ ih =>
    have hsign := sign?_of_readable hr hop.known
    have hoperands : ∀ e ∈ es, Makes form (Expr.lexemes form e) e :=
      fun e he => ih e he (hr.operand he)
    cases form with
    | signFirst =>
      rw [Expr.lexemes_signFirst]
      exact .group hsign hop.accepts (SignFirst.derivesAll_flatMap hoperands)
    | signLast =>
      rw [Expr.lexemes_signLast]
      exact .group (SignLast.stacks_flatMap hoperands) hsign hop.accepts

/-- A rendering is read where all of it can be, and then to the expression itself. -/
theorem read_render_eq_ok_iff (form : Notation) (width : Nat) (he : e.Formed) {e' : Expr} :
    (Reader.mk form width none).read (e.render form) = .ok e' ↔ e.Readable ∧ e' = e := by
  rw [read_eq_ok_iff, Expr.lexemes_render form e]
  constructor
  · intro h
    have hr := readable_of_makes h
    exact ⟨hr, h.unique (makes_of_readable form he hr)⟩
  · rintro ⟨hr, rfl⟩
    exact makes_of_readable form he hr

end Reading
end Fluxion
