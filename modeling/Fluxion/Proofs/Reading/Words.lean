import Fluxion.Expr.Walk
import Fluxion.Proofs.Reading.Rendering

namespace Fluxion

def Lexeme.word? : Lexeme → Option String
  | .word chars => some (String.ofList chars)
  | _ => none

/-- The tokens of a text without the parentheses. -/
def Token.words (source : List Char) : List String := (scan source).filterMap (·.lexeme.word?)

theorem Token.words_eq (source : List Char) :
    words source = (lexemes source).filterMap Lexeme.word? := by
  rw [lexemes, List.filterMap_map]
  rfl

theorem Token.IsWord.count_eq_zero {cs : List Char} (h : IsWord cs) {c : Char}
    (hc : c = '(' ∨ c = ')') : cs.count c = 0 := by
  refine List.count_eq_zero.mpr fun hmem => ?_
  obtain ⟨-, hopening, hclosing⟩ := h.plain c hmem
  exact hc.elim hopening hclosing

namespace Expr

variable {op : Operator} {es : List Expr}

/-- What a rendering has for a node. -/
def Sight.caption : Sight → String
  | .leaf l => l.text
  | .operation op _ => op.sign

/-- All nodes, each operation before its operands or behind them. -/
def nodes : Notation → Expr → List Sight
  | .signFirst =>
    Term.fold (fun l => [.leaf l]) fun op below => .operation op below.length :: below.flatten
  | .signLast =>
    Term.fold (fun l => [.leaf l]) fun op below => below.flatten ++ [.operation op below.length]

@[simp] theorem nodes_leaf (form : Notation) (l : Leaf) : nodes form (.leaf l) = [.leaf l] := by
  cases form <;> rfl

@[simp] theorem nodes_signFirst (op : Operator) (es : List Expr) :
    nodes .signFirst (.operation op es) = .operation op es.length ::
      es.flatMap (nodes .signFirst) := by
  simp [nodes, List.flatMap_def]

@[simp] theorem nodes_signLast (op : Operator) (es : List Expr) :
    nodes .signLast (.operation op es) =
      es.flatMap (nodes .signLast) ++ [.operation op es.length] := by
  simp [nodes, List.flatMap_def]

theorem nodes_perm (e : Expr) : (e.nodes .signFirst).Perm (e.nodes .signLast) := by
  induction e using Term.induct with
  | onLeaf l => simp
  | onOperation op es ih =>
    have hoperands : (es.flatMap (nodes .signFirst)).Perm (es.flatMap (nodes .signLast)) :=
      List.Perm.flatMap_left es ih
    rw [nodes_signFirst, nodes_signLast]
    exact (hoperands.cons _).trans (List.perm_append_singleton _ _).symm

theorem nodeCount_operation (op : Operator) (es : List Expr) :
    nodeCount (.operation op es) = (es.map nodeCount).sum + 1 := by
  rw [nodeCount, Term.fold_operation, List.foldl_eq_apply_foldr, Nat.add_comm]
  rfl

theorem length_nodes (form : Notation) (e : Expr) : (e.nodes form).length = e.nodeCount := by
  induction e using Term.induct with
  | onLeaf l =>
    rw [nodes_leaf]
    rfl
  | onOperation op es ih =>
    have hoperands : (es.flatMap (nodes form)).length = (es.map nodeCount).sum := by
      rw [List.length_flatMap, List.map_congr_left ih]
    rw [nodeCount_operation, ← hoperands]
    cases form <;> simp

theorem walk_of_continue (record : Sight → σ → σ) (s : σ) (e : Expr) :
    walk (fun node s => (true, record node.sight s)) s e =
      (e.nodes .signFirst).foldl (fun s sight => record sight s) s := by
  induction e using Term.induct generalizing s with
  | onLeaf l => rfl
  | onOperation op es ih =>
    rw [nodes_signFirst, List.foldl_cons, List.foldl_flatMap]
    change walkAll _ _ es = _
    rw [walkAll_eq_foldl]
    exact List.foldl_ext _ _ _ fun s e he => ih e he s

theorem sights_eq_nodes (e : Expr) : (e.sights fun _ => true) = e.nodes .signFirst := by
  have hwalk : (e.sights fun _ => true) =
      (walk (fun node seen => (true, node.sight :: seen)) [] e).reverse := by
    rw [sights]
    congr 2
    funext node seen
    cases node <;> rfl
  rw [hwalk, walk_of_continue (fun sight seen => sight :: seen)]
  simp

theorem walk_count (e : Expr) : walk (fun _ count => (true, count + 1)) 0 e = e.nodeCount := by
  rw [walk_of_continue (fun _ count => count + 1), ← length_nodes .signFirst]
  simp

theorem words_render (form : Notation) (e : Expr) :
    Token.words (e.render form).toList = (e.nodes form).map Sight.caption := by
  rw [Token.words_eq, lexemes_render]
  induction e using Term.induct with
  | onLeaf l => simp [Lexeme.word?, Sight.caption]
  | onOperation op es ih =>
    have hoperands : (es.flatMap (lexemes form)).filterMap Lexeme.word? =
        (es.flatMap (nodes form)).map Sight.caption := by
      rw [List.filterMap_flatMap, List.map_flatMap]
      exact List.flatMap_congr ih
    cases form with
    | signFirst => simp [List.filterMap_cons, Lexeme.word?, Sight.caption, hoperands]
    | signLast => simp [List.filterMap_cons, Lexeme.word?, Sight.caption, hoperands]

theorem toList_bare (op : Operator) (es : List Expr) :
    (bare (.operation op es)).toList =
      es.flatMap (fun e => (bare e).toList ++ [' ']) ++ op.sign.toList := by
  simp [bare, List.flatMap_map]

/-- A bare expression is cut into words alone. -/
theorem lexemes_bare (e : Expr) :
    Token.lexemes e.bare.toList = (e.nodes .signLast).map
      fun node => .word node.caption.toList := by
  induction e using Term.induct with
  | onLeaf l => exact Token.lexemes_word (isWord_leaf l)
  | onOperation op es ih =>
    have hitems := lexemes_items (es.map fun e => (bare e).toList) op.sign.toList
    rw [List.flatMap_map, List.flatMap_map] at hitems
    rw [toList_bare, hitems, Token.lexemes_word (isWord_sign op), nodes_signLast, List.map_append,
      List.map_flatMap, List.flatMap_congr ih]
    rfl

theorem texts_bare (e : Expr) :
    (Token.scan e.bare.toList).map Token.text = (e.nodes .signLast).map Sight.caption := by
  calc (Token.scan e.bare.toList).map Token.text
      = (Token.lexemes e.bare.toList).map fun l => String.ofList l.chars := by
        rw [Token.lexemes, List.map_map]
        rfl
    _ = (e.nodes .signLast).map Sight.caption := by
        rw [lexemes_bare, List.map_map]
        exact List.map_congr_left fun node _ => String.ofList_toList

/-- There is one pair of parentheses for each operation. -/
theorem count_render (form : Notation) {c : Char} (hc : c = '(' ∨ c = ')') (e : Expr) :
    (e.render form).toList.count c = e.operators.length := by
  induction e using Term.induct with
  | onLeaf l =>
    rw [render_leaf]
    exact (isWord_leaf l).count_eq_zero hc
  | onOperation op es ih =>
    have hsign := (isWord_sign op).count_eq_zero hc
    have hoperands : (es.map fun e => (render form e).toList.count c).sum =
        (es.flatMap Term.operators).length := by
      rw [List.length_flatMap, List.map_congr_left ih]
    rw [Term.operators_operation, List.length_cons, ← hoperands]
    cases form with
    | signFirst =>
      rw [toList_signFirst]
      rcases hc with rfl | rfl <;> simp [List.count_flatMap, Function.comp_def, hsign]
    | signLast =>
      rw [toList_signLast]
      rcases hc with rfl | rfl <;> simp [List.count_flatMap, Function.comp_def, hsign]

/-- Without its parentheses, a rendering with the sign first has the words for what a visitor is
shown who always goes on, and one with the sign last is what the bare expression is cut into. Both
have the same words, one for each node, and a pair of parentheses for each operation. -/
theorem renderings_agree (e : Expr) :
    let words (form : Notation) := Token.words (e.render form).toList
    words .signFirst = (e.sights fun _ => true).map Sight.caption ∧
      words .signLast = (Token.scan e.bare.toList).map Token.text ∧
      (words .signFirst).Perm (words .signLast) ∧
      (∀ form, (words form).length = e.nodeCount) ∧
      walk (fun _ count => (true, count + 1)) 0 e = e.nodeCount ∧
      ∀ form, (e.render form).toList.count '(' = e.operators.length ∧
        (e.render form).toList.count ')' = e.operators.length := by
  intro words
  have hwords (form : Notation) : words form = (e.nodes form).map Sight.caption :=
    words_render form e
  refine ⟨?_, ?_, ?_, fun form => ?_, walk_count e, fun form => ?_⟩
  · rw [hwords, sights_eq_nodes]
  · rw [hwords, texts_bare]
  · rw [hwords, hwords]
    exact (nodes_perm e).map Sight.caption
  · rw [hwords, List.length_map, length_nodes]
  · exact ⟨count_render form (.inl rfl) e, count_render form (.inr rfl) e⟩

end Expr
end Fluxion
