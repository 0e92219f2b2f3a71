import Fluxion.Proofs.Expr.Position
import Fluxion.Proofs.Reading.Rendering

namespace Fluxion

namespace Expr

/-- An expression with the sign last, and with parentheses where `grouped` has them. A subexpression
is told by the steps that lead to it, each the index of an operand. -/
def spell : Expr → (List Nat → Bool) → String :=
  Term.fold (fun l _ => l.text) fun op operands grouped =>
    let items := operands.mapIdx fun i operand => operand (fun path => grouped (i :: path)) ++ " "
    let body := String.join items ++ op.sign
    if grouped [] then "(" ++ body ++ ")" else body

/-- Each variadic operation without parentheses is reached by steps to first
operands from an operation that has them. Others that have them may be on the way,
so it need not be the innermost. -/
def Unambiguous (e : Expr) (grouped : List Nat → Bool) : Prop :=
  ∀ path op es, e.at? path = some (.operation op es) → op.arity = .variadic →
    grouped path = false →
    ∃ group steps, grouped group ∧ path = group ++ List.replicate steps 0

variable {grouped : List Nat → Bool} {op : Operator} {es : List Expr} {e : Expr} {front : Prop}

@[simp] theorem spell_leaf (l : Leaf) : spell (.leaf l) grouped = l.text := rfl

theorem spell_operation (op : Operator) (es : List Expr) :
    spell (.operation op es) grouped =
      let items := es.mapIdx fun i e => e.spell (fun path => grouped (i :: path)) ++ " "
      let body := String.join items ++ op.sign
      if grouped [] then "(" ++ body ++ ")" else body := by
  have hitems :
      (es.map spell).mapIdx (fun i operand => operand (fun path => grouped (i :: path)) ++ " ") =
      es.mapIdx fun i e => e.spell (fun path => grouped (i :: path)) ++ " " := by
    simp [List.mapIdx_eq_iff, Function.comp_def]
  rw [← hitems]
  exact congrFun (Term.fold_operation _ _ op es) grouped

/-- All operations with parentheses or none of them are the spellings that are written out. -/
theorem spell_uniform (e : Expr) (all : Bool) :
    (e.spell fun _ => all) = if all then e.signLast else e.bare := by
  induction e using Term.induct with
  | onLeaf l => cases all <;> rfl
  | onOperation op es ih =>
    have hitems : (es.mapIdx fun _ e => (spell e fun _ => all) ++ " ") =
        es.map fun e => (if all then signLast e else bare e) ++ " " := by
      refine List.mapIdx_eq_iff.mpr fun i => ?_
      rw [List.getElem?_map]
      exact Option.map_congr fun e he => by rw [ih e (List.mem_of_getElem? he)]
    rw [spell_operation, hitems]
    cases all <;> simp [bare, signLast, Function.comp_def, String.append_assoc]

/-- Parentheses around a bare expression are those of its root. -/
theorem spell_isEmpty (op : Operator) (es : List Expr) :
    spell (.operation op es) List.isEmpty = "(" ++ bare (.operation op es) ++ ")" := by
  have hbare : spell (.operation op es) (fun _ => false) = bare (.operation op es) :=
    spell_uniform _ false
  rw [← hbare, spell_operation, spell_operation]
  simp

theorem unambiguous_isEmpty (h : ∀ d ∈ es, ∀ o ∈ d.operators, o.arity ≠ .variadic) :
    Unambiguous (.operation op es) List.isEmpty := by
  intro path o os hat ho hpath
  cases path with
  | nil => cases hpath
  | cons i path =>
    obtain ⟨d, hd, hat⟩ := Option.bind_eq_some_iff.mp hat
    exact absurd ho (h d (List.mem_of_getElem? hd) o (operator_mem_of_at? hat))

/-- The lexemes of the operands, one after another. -/
def spelledOperands (grouped : List Nat → Bool) (es : List Expr) : List Lexeme :=
  (es.mapIdx fun i e => (e.spell fun path => grouped (i :: path)).toList).flatMap Token.lexemes

theorem lexemes_spell (op : Operator) (es : List Expr) :
    Token.lexemes (spell (.operation op es) grouped).toList =
      if grouped [] then .opening :: spelledOperands grouped es ++ [.word op.sign.toList, .closing]
      else spelledOperands grouped es ++ [.word op.sign.toList] := by
  have hsign := Token.lexemes_word (isWord_sign op)
  let texts := es.mapIdx fun i e => (e.spell fun path => grouped (i :: path)).toList
  have hitems : (es.mapIdx fun i e => (e.spell fun path => grouped (i :: path)) ++ " ").flatMap
      String.toList =
      texts.flatMap (· ++ [' ']) := by
    refine congrArg List.flatten (List.ext_getElem? fun i => ?_)
    simp [texts, Function.comp_def]
  rw [spell_operation]
  cases grouped [] with
  | true =>
    have htext : "(".toList ++ (texts.flatMap (· ++ [' ']) ++ op.sign.toList) ++ ")".toList =
        '(' :: (texts.flatMap (· ++ [' ']) ++ (op.sign.toList ++ [')'])) := by simp
    simp only [↓reduceIte, String.toList_append, String.toList_join, hitems]
    rw [htext, Token.lexemes_opening, lexemes_items,
      Token.lexemes_append Token.apart_closing, hsign, Token.lexemes_closing]
    rfl
  | false =>
    simp only [Bool.false_eq_true, ↓reduceIte, String.toList_append, String.toList_join, hitems]
    rw [lexemes_items, hsign]
    rfl

end Expr

namespace Reading.SignLast

open Fluxion.Expr (Readable Unambiguous spell spelledOperands lexemes_spell)

variable {grouped : List Nat → Bool} {op : Operator} {es left : List Expr} {e : Expr}
  {front : Prop} {items : List Lexeme}

/-- What `Unambiguous` asks for inside a spelling. At the front, the expression itself is reached by
steps to first operands from a group around it. -/
def Fits (front : Prop) (grouped : List Nat → Bool) (e : Expr) : Prop :=
  ∀ path op es, e.at? path = some (.operation op es) → op.arity = .variadic →
    grouped path = false →
    ∃ group steps, (grouped group ∨ front ∧ group = []) ∧
      path = group ++ List.replicate steps 0

theorem fits_of_unambiguous (h : Unambiguous e grouped) : Fits front grouped e := by
  intro path op es hat hop hpath
  obtain ⟨group, steps, hgroup, hsteps⟩ := h path op es hat hop hpath
  exact ⟨group, steps, .inl hgroup, hsteps⟩

theorem Fits.operand (h : Fits front grouped (.operation op es)) {i : Nat} (hi : es[i]? = some e) :
    Fits ((grouped [] ∨ front) ∧ i = 0) (fun path => grouped (i :: path)) e := by
  intro path o os hat ho hpath
  have hat' : Expr.at? (.operation op es) (i :: path) = some (.operation o os) := by
    simp [Expr.at?, hi, hat]
  obtain ⟨group, steps, hgroup, hsteps⟩ := h _ o os hat' ho hpath
  cases group with
  | cons j group =>
    obtain ⟨rfl, rfl⟩ := List.cons.inj hsteps
    exact ⟨group, steps, .inl (by simpa using hgroup), rfl⟩
  | nil =>
    cases steps with
    | zero => cases hsteps
    | succ steps =>
      obtain ⟨rfl, rfl⟩ := List.cons.inj hsteps
      exact ⟨[], steps, .inr ⟨⟨by simpa using hgroup, rfl⟩, rfl⟩, rfl⟩

/-- Lexemes that leave an expression on top of whatever items have left, or, at the
front, where they have left nothing. -/
def Leaves (front : Prop) (ls : List Lexeme) (e : Expr) : Prop :=
  ∀ items left, Stacks items left → (front → left = []) → Stacks (items ++ ls) (left ++ [e])

/-- Each of the operands in a spelling is left so, with only the first at the front. -/
def LeavesAll (front : Prop) (grouped : List Nat → Bool) (es : List Expr) : Prop :=
  ∀ i e, es[i]? = some e →
    Leaves (front ∧ i = 0) (Token.lexemes (spell e fun path => grouped (i :: path)).toList) e

theorem Stacks.spelledOperands (hs : Stacks items left) (hleft : front → left = [])
    (hes : LeavesAll front grouped es) :
    Stacks (items ++ spelledOperands grouped es) (left ++ es) := by
  induction es using List.reverseRecOn with
  | nil => simpa [Expr.spelledOperands] using hs
  | append_singleton es e ih =>
    have hinit := ih fun i d hi => hes i d <| by
      rw [List.getElem?_append_left (List.getElem?_eq_some_iff.mp hi).1, hi]
    have hlast := hes es.length e (by simp)
    simp only [Expr.spelledOperands, List.mapIdx_concat, List.flatMap_append,
      List.flatMap_singleton, ← List.append_assoc]
    refine hlast _ _ hinit fun hfront => ?_
    rw [hleft hfront.1, List.eq_nil_of_length_eq_zero hfront.2]
    rfl

/-- With parentheses around it, an operation is spelled by what denotes it. -/
theorem denotes_grouped (hop : op.Takes es.length) (hr : Readable (.operation op es))
    (hroot : grouped [] = true) (hes : LeavesAll front grouped es) :
    Denotes (Token.lexemes (spell (.operation op es) grouped).toList) (.operation op es) := by
  rw [lexemes_spell, if_pos hroot]
  exact .group (Stacks.nil.spelledOperands (fun _ => rfl) hes)
    (sign?_of_readable hr hop.known) hop.accepts

/-- Inside a group, a spelling leaves its expression on top of the stack. -/
theorem leaves_spell (he : e.Formed) (hr : e.Readable) (hfits : Fits front grouped e) :
    Leaves front (Token.lexemes (spell e grouped).toList) e := by
  induction he generalizing front grouped with
  | leaf l =>
    intro items left hs _
    rw [Expr.spell_leaf, Token.lexemes_word (isWord_leaf l)]
    exact hs.operand (.leaf (spells_of_readable hr))
  | @operation op es hop _ ih =>
    intro items left hs hleft
    have hes : LeavesAll (grouped [] ∨ front) grouped es := fun i e hi =>
      ih e (List.mem_of_getElem? hi) (hr.operand (List.mem_of_getElem? hi)) (hfits.operand hi)
    cases hroot : grouped [] with
    | true => exact hs.operand (denotes_grouped hop hr hroot hes)
    | false =>
      have hfront : grouped [] = true ∨ front → left = [] := fun h =>
        hleft (h.resolve_left (by simp [hroot]))
      have hsign := sign?_of_readable hr hop.known
      have hitems := hs.spelledOperands hfront hes
      rw [lexemes_spell, hroot, if_neg Bool.false_ne_true, ← List.append_assoc]
      -- A sign takes its count from the top; only one that takes all needs
      -- the stack to hold no more.
      cases harity : op.arity with
      | fixed count =>
        obtain rfl := Arity.accepts_iff.mp hop.accepts count harity
        exact hitems.fixed hsign harity
      | variadic =>
        obtain ⟨group, steps, hgroup, hsteps⟩ := hfits [] op es rfl harity hroot
        obtain ⟨rfl, -⟩ := List.append_eq_nil_iff.mp hsteps.symm
        obtain rfl := hfront (hgroup.imp_right And.left)
        exact hitems.variadic hsign harity

theorem denotes_spell (he : (Term.operation op es).Formed) (hr : Readable (.operation op es))
    (hroot : grouped [] = true) (hgrouped : Unambiguous (.operation op es) grouped) :
    Denotes (Token.lexemes (spell (.operation op es) grouped).toList) (.operation op es) := by
  cases he with
  | operation hop hes =>
    have hfits : Fits False grouped (.operation op es) := fits_of_unambiguous hgrouped
    have hleaves : LeavesAll (grouped [] ∨ False) grouped es := fun i e hi =>
      leaves_spell (hes e (List.mem_of_getElem? hi)) (hr.operand (List.mem_of_getElem? hi))
        (hfits.operand hi)
    exact denotes_grouped hop hr hroot hleaves

/-- An operation is read from each spelling that has parentheses around it and no variadic operation
without them past a first operand. With none inside it is read if all others take a fixed number of
operands. -/
theorem read_spell_eq_ok (width : Nat) (he : (Term.operation op es).Formed)
    (hr : Readable (.operation op es)) :
    let e : Expr := .operation op es
    let reads := (Reader.mk .signLast width none).read
    (∀ grouped, grouped [] = true → e.Unambiguous grouped →
      reads (e.spell grouped) = .ok e) ∧
      ((∀ d ∈ es, ∀ o ∈ d.operators, o.arity ≠ .variadic) →
        reads ("(" ++ e.bare ++ ")") = .ok e) := by
  intro e reads
  have hreads : ∀ grouped, grouped [] = true → e.Unambiguous grouped →
      reads (e.spell grouped) = .ok e :=
    fun grouped hroot hgrouped =>
      (read_eq_ok_iff .signLast width (e.spell grouped)).mpr (denotes_spell he hr hroot hgrouped)
  refine ⟨hreads, fun hfixed => ?_⟩
  rw [← Expr.spell_isEmpty]
  exact hreads _ rfl (Expr.unambiguous_isEmpty hfixed)

/-- A sum of exponentials in front of a product needs no parentheses, and neither do
operations of a fixed number of operands. -/
theorem read_spell_lse :
    let x : Expr := .leaf (.var .x)
    let y : Expr := .leaf (.var .y)
    let product : Expr := .operation (.any .multiply) [x, y]
    let sum : Expr := .operation (.any .sumexp) [x, y]
    let reads := (Reader.mk .signLast 20 none).read
    reads "(x y sumexp x y * lse)" = .ok (.operation (.any .lse) [sum, product]) ∧
      reads "(x y * x y * +)" = .ok (.operation (.any .add) [product, product]) := by
  intro x y product sum reads
  have hproduct : product.Formed := Term.formed_any rfl (by simp [Term.Formed.leaf, x, y])
  have hsum : sum.Formed := Term.formed_any rfl (by simp [Term.Formed.leaf, x, y])
  have hlse : (Term.operation (.any .lse) [sum, product]).Formed :=
    Term.formed_any rfl (by simp [hsum, hproduct])
  have hadd : (Term.operation (.any .add) [product, product]).Formed :=
    Term.formed_any rfl (by simp [hproduct])
  have hreadable : Readable (.operation (.any .lse) [sum, product]) :=
    ⟨by simp [x, y, sum, product], by simp [x, y, sum, product]; decide +kernel⟩
  have hreadable' : Readable (.operation (.any .add) [product, product]) :=
    ⟨by simp [x, y, product], by simp [x, y, product]; decide +kernel⟩
  have hfront : Expr.Unambiguous (.operation (.any .lse) [sum, product]) List.isEmpty := by
    intro path o os hat ho hpath
    match path with
    | [] => cases hpath
    | [0] => exact ⟨[], 1, rfl, rfl⟩
    | 0 :: i :: path =>
      change sum.at? (i :: path) = _ at hat
      obtain ⟨d, hd, hat⟩ := Option.bind_eq_some_iff.mp hat
      have hleaf : d = x ∨ d = y := by simpa using List.mem_of_getElem? hd
      rcases hleaf with rfl | rfl <;> simpa [x, y] using Expr.operator_mem_of_at? hat
    | (i + 1) :: path =>
      change [product][i]?.bind (Expr.at? · path) = _ at hat
      obtain ⟨d, hd, hat⟩ := Option.bind_eq_some_iff.mp hat
      obtain rfl : d = product := by simpa using List.mem_of_getElem? hd
      obtain rfl : o = .any .multiply := by simpa [x, y, product] using Expr.operator_mem_of_at? hat
      cases ho
  refine ⟨?_, ?_⟩
  · exact (read_spell_eq_ok 20 hlse hreadable).1 List.isEmpty rfl hfront
  · exact (read_spell_eq_ok 20 hadd hreadable').2 (by simp [x, y, product]; decide)

end Reading.SignLast
end Fluxion
