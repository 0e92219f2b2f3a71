import Mathlib.Data.List.Induction
import Fluxion.Proofs.Reading.Language
import Fluxion.Proofs.Reading.Location

namespace Fluxion
namespace Reading

variable {t k : Token} {ts before after : List Token} {f : Fault} {limit : Option Nat}
  {d endPosition : Nat}

/-- How many more parentheses are opened than closed. -/
def balance (ts : List Token) : Int :=
  (ts.countP (·.lexeme = .opening) : Int) - ts.countP (·.lexeme = .closing)

/-- The level that a parenthesis behind some tokens opens. -/
def level (before : List Token) : Int := 1 + balance before

/-- Where a group that is too deep is noticed. -/
def nextPosition (endPosition : Nat) (after : List Token) : Nat :=
  (after.head?.map Token.position).getD endPosition

/-- No parenthesis opens a level past the limit. -/
def Within (limit : Int) (ts : List Token) : Prop :=
  ∀ before k after, ts = before ++ k :: after → k.lexeme = .opening → level before ≤ limit

@[simp] theorem balance_nil : balance [] = 0 := rfl

theorem balance_cons (t : Token) (ts : List Token) :
    balance (t :: ts) = balance [t] + balance ts := by
  simp only [balance, List.countP_cons, List.countP_nil]
  omega

theorem balance_opening (ht : t.lexeme = .opening) : balance [t] = 1 := by simp [balance, ht]

theorem balance_closing (ht : t.lexeme = .closing) : balance [t] = -1 := by simp [balance, ht]

theorem balance_word {chars : List Char} (ht : t.lexeme = .word chars) : balance [t] = 0 := by
  simp [balance, ht]

theorem balance_sign {op : Operator} (h : t.lexeme.sign? = some op) : balance [t] = 0 := by
  cases ht : t.lexeme with
  | word chars => exact balance_word ht
  | opening => simp [ht, Lexeme.sign?] at h
  | closing => simp [ht, Lexeme.sign?] at h

theorem balance_le_of_within {l : Int} (h : Within l (t :: ts)) (hl : 0 ≤ l) :
    balance [t] ≤ l := by
  by_cases ho : t.lexeme = .opening
  · have hfirst := h [] t ts rfl ho
    rw [balance_opening ho]
    exact hfirst
  · have hnone : [t].countP (·.lexeme = .opening) = 0 := by simp [ho]
    rw [balance, hnone]
    omega

theorem Within.tail {l : Int} (h : Within l (t :: ts)) : Within (l - balance [t]) ts := by
  intro before k after hsplit hk
  have hcons := h (t :: before) k after (congrArg (t :: ·) hsplit) hk
  rw [level, balance_cons] at hcons
  rw [level]
  omega

theorem Within.of_prefix {l : Int} {us : List Token} (h : Within l ts) (hus : us <+: ts) :
    Within l us := by
  obtain ⟨rest, rfl⟩ := hus
  rintro before k after rfl hk
  exact h before k (after ++ rest) (by simp) hk

theorem balance_congr {us : List Token} (h : ts.map Token.lexeme = us.map Token.lexeme) :
    balance ts = balance us := by
  have hcount (l : Lexeme) (ts : List Token) :
      ts.countP (·.lexeme = l) = (ts.map Token.lexeme).countP (· = l) := by
    rw [List.countP_map]
    rfl
  simp only [balance, hcount, h]

/-- It is only the lexemes that matter. -/
theorem Within.congr {l : Int} {us : List Token} (h : Within l ts)
    (hus : us.map Token.lexeme = ts.map Token.lexeme) : Within l us := by
  rintro before k after rfl hk
  rw [List.map_append, List.map_cons] at hus
  obtain ⟨front, back, rfl, hfront, hback⟩ := List.map_eq_append_iff.mp hus.symm
  obtain ⟨k', after', rfl, hk', -⟩ := List.map_eq_cons_iff.mp hback
  have hlevel := h front k' after' rfl (hk'.trans hk)
  rwa [level, balance_congr hfront] at hlevel

/-- There is a first parenthesis past a limit, or none. -/
theorem within_or_exceeds (l : Int) (ts : List Token) : Within l ts ∨ ∃ before k after,
    ts = before ++ k :: after ∧ k.lexeme = .opening ∧ l < level before ∧ Within l before := by
  induction ts using List.reverseRecOn with
  | nil => exact .inl fun before k after h => by simp at h
  | append_singleton ts t ih =>
    obtain hts | ⟨before, k, after, rfl, hk, hdeep, hbefore⟩ := ih
    · by_cases ht : t.lexeme = .opening ∧ l < level ts
      · exact .inr ⟨ts, t, [], rfl, ht.1, ht.2, hts⟩
      · refine .inl fun before k after hsplit hk => ?_
        rcases List.eq_nil_or_concat after with rfl | ⟨after, u, rfl⟩
        · obtain ⟨rfl, htk⟩ := List.append_inj' hsplit rfl
          obtain rfl := List.singleton_inj.mp htk
          exact Int.not_lt.mp fun hlt => ht ⟨hk, hlt⟩
        · have hsame : ts ++ [t] = (before ++ k :: after) ++ [u] := by simpa using hsplit
          exact hts before k after (List.append_inj' hsame rfl).1 hk
    · exact .inr ⟨before, k, after ++ [t], by simp, hk, hdeep, hbefore⟩

variable {Group Held : Type} {g : Grammar Group Held} {next : Option Token}
  {p q : Progress Group Held}

/-- How much deeper a move goes. -/
def Move.rise : Move Group Held → Int
  | .stay _ => 0
  | .descend _ => 1
  | .close _ => -1

namespace Grammar

/-- A grammar whose groups open and close with their parentheses. -/
def Nested (g : Grammar Group Held) : Prop :=
  ∀ {group : Group} {t : Token} {next : Option Token} {move : Move Group Held},
    g.advance group t next = .ok move → balance [t] = move.rise

theorem balance_start {first : Start} (h : start t = .ok first) (held : Held) :
    balance [t] = (g.taken held first).rise := by
  cases first with
  | group => exact balance_opening (start_eq_group_iff.mp h)
  | leaf l =>
    obtain ⟨chars, hword, -⟩ := start_eq_leaf_iff.mp h
    exact balance_word hword

theorem depth_close (e : Expr) (outer : List Held) : (g.close e outer).depth = outer.length := by
  cases outer <;> rfl

theorem depth_after (outer : List Held) (move : Move Group Held) :
    ((g.after outer move).depth : Int) = outer.length + 1 + move.rise := by
  cases move with
  | stay group => simp [Grammar.after, Progress.depth, Move.rise]
  | descend held => simp [Grammar.after, Progress.depth, Move.rise]
  | close e =>
    rw [Grammar.after, depth_close, Move.rise]
    omega

/-- A step goes as much deeper as its token opens. -/
theorem Nested.depth_step (hg : g.Nested) (h : g.step p t next = .ok q) :
    (q.depth : Int) = p.depth + balance [t] := by
  obtain ⟨rfl, ht, rfl⟩ | ⟨chars, l, rfl, ht, -, rfl⟩ |
    ⟨group, outer, move, rfl, hmove, rfl⟩ := step_eq_ok h
  · rw [balance_opening ht]
    rfl
  · rw [balance_word ht]
    rfl
  · rw [depth_after, hg hmove]
    rfl

/-- The limit is no less than a depth. -/
def Allows (limit : Option Nat) (d : Nat) : Prop := ∀ l ∈ limit, d ≤ l

theorem excess?_of_allows (h : Allows limit d) (hp : p.depth ≤ d) : p.excess? limit = none := by
  cases limit with
  | none => rfl
  | some l =>
    have hl := h l rfl
    simp [Progress.excess?]
    omega

theorem run_cons_of_error {cause : ParseCause} (hp : p.excess? limit = none)
    (hstep : g.step p t ts.head? = .error cause) :
    g.run limit endPosition p (t :: ts) = .error ⟨cause, t.position⟩ := by
  simp [run, hp, hstep]

theorem run_cons_of_ok (hp : p.excess? limit = none) (hstep : g.step p t ts.head? = .ok q) :
    g.run limit endPosition p (t :: ts) = g.run limit endPosition q ts := by
  simp [run, hp, hstep]

/-- As far as no parenthesis opens a level past `d`, all limits from `d` on agree. The reading fails
there under each of them, or goes on from the same progress. -/
theorem Nested.run_append (hg : g.Nested) (hp : p.depth ≤ d)
    (hbefore : Within (d - p.depth) before) :
    (∃ f, (∃ t ∈ before, f.position = t.position) ∧ ∀ limit, Allows limit d →
      g.run limit endPosition p (before ++ ts) = .error f) ∨
    ∃ q : Progress Group Held, q.depth ≤ d ∧ (q.depth : Int) = p.depth + balance before ∧
      ∀ limit, Allows limit d →
        g.run limit endPosition p (before ++ ts) = g.run limit endPosition q ts := by
  induction before generalizing p with
  | nil => exact .inr ⟨p, hp, by simp, fun _ _ => rfl⟩
  | cons t before ih =>
    cases hstep : g.step p t (before ++ ts).head? with
    | error cause =>
      refine .inl ⟨⟨cause, t.position⟩, ⟨t, List.mem_cons_self, rfl⟩,
        fun limit hlimit => ?_⟩
      exact run_cons_of_error (excess?_of_allows hlimit hp) hstep
    | ok q =>
      have hdepth := hg.depth_step hstep
      have hfirst := balance_le_of_within hbefore (by omega)
      have hrest : Within (d - q.depth) before := by
        rw [hdepth, ← Int.sub_sub]
        exact hbefore.tail
      have hrun (limit : Option Nat) (hlimit : Allows limit d) :
          g.run limit endPosition p (t :: before ++ ts) = g.run limit endPosition q
            (before ++ ts) :=
        run_cons_of_ok (excess?_of_allows hlimit hp) hstep
      rcases ih (by omega) hrest with ⟨f, ⟨u, hu, hposition⟩, hfails⟩ |
        ⟨r, hr, hbalance, hgoes⟩
      · refine .inl ⟨f, ⟨u, List.mem_cons_of_mem t hu, hposition⟩, fun limit hlimit => ?_⟩
        exact (hrun limit hlimit).trans (hfails limit hlimit)
      · refine .inr
          ⟨r, hr, ?_, fun limit hlimit => (hrun limit hlimit).trans (hgoes limit hlimit)⟩
        rw [balance_cons]
        omega

theorem allows_none (d : Nat) : Allows none d := nofun

theorem allows_some (d : Nat) : Allows (some d) d := by simp [Allows]

theorem run_nil (hp : p.excess? limit = none) :
    g.run limit endPosition p [] = (g.finish p).mapError (⟨·, endPosition⟩) := by
  simp [run, hp]

theorem run_of_excess (hp : d < p.depth) :
    g.run (some d) endPosition p ts = .error ⟨.tooDeep d, nextPosition endPosition ts⟩ := by
  have hexcess : p.excess? (some d) = some d := by simp [Progress.excess?, hp]
  cases ts <;> simp [run, hexcess, nextPosition]

theorem within_awaiting (h : Within d ts) :
    Within (d - (Progress.awaiting : Progress Group Held).depth) ts := by
  simpa [Progress.depth] using h

/-- With no parenthesis past it, a limit makes no difference. -/
theorem Nested.run_of_within (hg : g.Nested) (hts : Within d ts) :
    g.run (some d) endPosition .awaiting ts = g.run none endPosition .awaiting ts := by
  rw [← List.append_nil ts]
  rcases hg.run_append (Nat.zero_le d) (within_awaiting hts) with ⟨f, -, hfails⟩ |
    ⟨q, hq, -, hgoes⟩
  · rw [hfails _ (allows_some d), hfails _ (allows_none d)]
  · rw [hgoes _ (allows_some d), hgoes _ (allows_none d),
      run_nil (excess?_of_allows (allows_some d) hq),
      run_nil (excess?_of_allows (allows_none d) hq)]

/-- The first parenthesis past the limit is reached or not. If it is, the reading goes on behind it
without a limit, and is stopped there with one. -/
theorem Nested.run_past (hg : g.Nested) (hbefore : Within d before) (hk : k.lexeme = .opening)
    (hdeep : d < level before) :
    (∃ f, (∃ t ∈ before ++ [k], f.position = t.position) ∧
      g.run none endPosition .awaiting (before ++ k :: after) = .error f ∧
      g.run (some d) endPosition .awaiting (before ++ k :: after) = .error f) ∨
    ∃ q : Progress Group Held,
      g.run none endPosition .awaiting (before ++ k :: after) = g.run none endPosition q after ∧
      g.run (some d) endPosition .awaiting (before ++ k :: after) =
        .error ⟨.tooDeep d, nextPosition endPosition after⟩ := by
  rcases hg.run_append (Nat.zero_le d) (within_awaiting hbefore) with
    ⟨f, ⟨t, ht, hposition⟩, hfails⟩ | ⟨p, hp, hbalance, hgoes⟩
  · exact .inl ⟨f, ⟨t, List.mem_append_left _ ht, hposition⟩, hfails _ (allows_none d),
      hfails _ (allows_some d)⟩
  · have hnone := excess?_of_allows (allows_none d) hp
    have hsome := excess?_of_allows (allows_some d) hp
    rw [hgoes _ (allows_none d), hgoes _ (allows_some d)]
    cases hstep : g.step p k after.head? with
    | error cause =>
      refine .inl ⟨⟨cause, k.position⟩, ⟨k, by simp, rfl⟩, ?_, ?_⟩
      · exact run_cons_of_error hnone hstep
      · exact run_cons_of_error hsome hstep
    | ok q =>
      refine .inr ⟨q, run_cons_of_ok hnone hstep,
        (run_cons_of_ok hsome hstep).trans (run_of_excess ?_)⟩
      have hdepth := hg.depth_step hstep
      rw [balance_opening hk] at hdepth
      rw [level] at hdeep
      change (p.depth : Int) = (0 : Nat) + balance before at hbalance
      omega

/-- What a limit does not stop, a higher one does not stop either. -/
theorem excess?_of_le {l : Nat} (hl : d ≤ l) (hp : p.excess? (some d) = none) :
    p.excess? (some l) = none := by
  simp only [Progress.excess?, Option.filter_eq_none_iff, Option.some.injEq, forall_eq',
    decide_eq_true_eq]
    at hp ⊢
  omega

end Grammar

theorem SignFirst.grammar_nested : SignFirst.grammar.Nested := by
  intro group t next move hmove
  cases group with
  | unnamed =>
    obtain ⟨op, hsign, rfl⟩ := advance_unnamed_eq_ok_iff.mp hmove
    exact balance_sign hsign
  | call c =>
    obtain ⟨-, -, first, hstart, rfl⟩ | ⟨ht, -, rfl⟩ := advance_call_eq_ok_iff.mp hmove
    · exact Grammar.balance_start hstart c
    · exact balance_closing ht

theorem SignLast.grammar_nested : SignLast.grammar.Nested := by
  intro group t next move hmove
  cases group with
  | complete e =>
    obtain ⟨ht, rfl⟩ := advance_complete_eq_ok_iff.mp hmove
    exact balance_closing ht
  | filling operands =>
    obtain ⟨-, op, hsign, -, rfl⟩ | ⟨-, op, left, hsign, -, rfl⟩ |
      ⟨-, -, first, hstart, rfl⟩ :=
      advance_filling_eq_ok_iff.mp hmove
    · exact balance_sign hsign
    · exact balance_sign hsign
    · exact Grammar.balance_start hstart operands

variable {source : List Char}

/-- The tokens of a text, split at one of them, stand one behind the other. -/
theorem position_sorted (hscan : Token.scan source = before ++ k :: after) :
    (∀ t ∈ before ++ [k], t.position ≤ k.position) ∧
      ∀ t ∈ after, k.position < t.position := by
  have hsorted : (before ++ k :: after).Pairwise fun t u => t.position < u.position :=
    hscan ▸ Token.pairwise_scanFrom 1 source
  obtain ⟨-, hafter, hbefore⟩ := List.pairwise_append.mp hsorted
  refine ⟨fun t ht => ?_, (List.pairwise_cons.mp hafter).1⟩
  rcases List.mem_append.mp ht with ht | ht
  · exact Nat.le_of_lt (hbefore t ht k List.mem_cons_self)
  · obtain rfl := List.mem_singleton.mp ht
    exact Nat.le_refl _

theorem position_lt_of_points (hscan : Token.scan source = before ++ k :: after)
    (hf : Points (source.length + 1) after f) : k.position < f.position := by
  cases hf with
  | atEnd => exact (position_lt_of_mem_scan (hscan ▸ by simp)).2
  | atToken ht => exact (position_sorted hscan).2 _ ht

/-- At the first parenthesis past the limit, a reading has failed in
any case or is stopped behind it. -/
theorem Grammar.Nested.read_past {Group Held : Type} {g : Grammar Group Held} (hg : g.Nested)
    (htrue : g.Truthful) (hscan : Token.scan source = before ++ k :: after)
    (hbefore : Within d before) (hk : k.lexeme = .opening) (hdeep : d < level before) :
    (∃ f, f.position ≤ k.position ∧ g.read none source = .error f ∧
      g.read (some d) source = .error f) ∨
    (∀ f, g.read none source = .error f → k.position < f.position) ∧
      g.read (some d) source = .error ⟨.tooDeep d, nextPosition (source.length + 1) after⟩ := by
  simp only [Grammar.read, hscan]
  rcases hg.run_past hbefore hk hdeep with ⟨f, ⟨t, ht, hposition⟩, hnone, hsome⟩ |
    ⟨q, hnone, hsome⟩
  · exact .inl ⟨f, hposition ▸ (position_sorted hscan).1 t ht, hnone, hsome⟩
  · refine .inr ⟨fun f hf => ?_, hsome⟩
    rw [hnone] at hf
    exact position_lt_of_points hscan (htrue.points hf)

/-- An error that is not the limit's own is that of the reading without a limit, and what stands
before it keeps within the limit. -/
theorem Grammar.Nested.read_of_not_tooDeep {Group Held : Type} {g : Grammar Group Held}
    (hg : g.Nested) (h : g.read (some d) source = .error f) (hf : ∀ l, f.cause ≠ .tooDeep l) :
    g.read none source = .error f ∧
      Within d ((Token.scan source).filter (·.position < f.position)) := by
  have hsorted := Token.pairwise_scanFrom 1 source
  obtain hwithin | ⟨before, k, after, hscan, hk, hdeep, hbefore⟩ :=
    within_or_exceeds d (Token.scan source)
  · refine ⟨?_, hwithin.of_prefix (Token.filter_position_prefix hsorted _)⟩
    rw [Grammar.read, ← hg.run_of_within hwithin]
    exact h
  · simp only [Grammar.read, hscan] at h ⊢
    obtain ⟨f', ⟨t, ht, hposition⟩, hnone, hsome⟩ | ⟨q, -, hsome⟩ :=
      hg.run_past hbefore hk hdeep
    · obtain rfl := Except.error.inj (hsome.symm.trans h)
      refine ⟨hnone, ?_⟩
      obtain ⟨hle, hlater⟩ := position_sorted hscan
      have hposition : f'.position ≤ k.position := hposition ▸ hle t ht
      have hrest : ∀ u ∈ k :: after, f'.position ≤ u.position := List.forall_mem_cons.mpr
        ⟨hposition, fun u hu => Nat.le_trans hposition (Nat.le_of_lt (hlater u hu))⟩
      change (Token.scan source).Pairwise _ at hsorted
      rw [hscan] at hsorted
      rw [List.filter_append, Token.filter_position_of_le hrest, List.append_nil]
      exact hbefore.of_prefix (Token.filter_position_prefix (List.pairwise_append.mp hsorted).1 _)
    · have hcause := congrArg Fault.cause (Except.error.inj (hsome.symm.trans h))
      exact absurd hcause.symm (hf d)

end Reading

namespace Reader

open Reading

/-- Both notations are read by a grammar whose groups nest. -/
theorem exists_nested_grammar (form : Notation) : ∃ (Group Held : Type) (g : Grammar Group Held),
    g.Nested ∧ g.Truthful ∧ ∀ width limit text, (Reader.mk form width limit).read text =
      (g.read limit text.toList).mapError (·.within text.toList width) := by
  cases form with
  | signFirst =>
    exact ⟨_, _, _, SignFirst.grammar_nested, SignFirst.grammar_truthful, fun _ _ _ => rfl⟩
  | signLast =>
    exact ⟨_, _, _, SignLast.grammar_nested, SignLast.grammar_truthful, fun _ _ _ => rfl⟩

/-- With no parenthesis past it, a limit makes no difference. Otherwise the reading is stopped
behind the first of them, unless it fails before that, and then it fails as it would. So what is
read within a limit is read within any higher one and without any. -/
theorem read_limit (form : Notation) (width d : Nat) (text : String) :
    let source := text.toList
    let reads (limit : Option Nat) := (Reader.mk form width limit).read text
    (Within d (Token.scan source) → reads (some d) = reads none) ∧
    (∀ before k after, Token.scan source = before ++ k :: after → k.lexeme = .opening →
      d < level before → Within d before →
        (∀ err, reads none = .error err → err.position ≤ k.position →
          reads (some d) = .error err) ∧
        ((∀ err, reads none = .error err → k.position < err.position) →
          reads (some d) = .error
            (Fault.within ⟨.tooDeep d, nextPosition (source.length + 1) after⟩ source width))) ∧
    ∀ e, reads (some d) = .ok e →
      reads none = .ok e ∧ ∀ l, d ≤ l → reads (some l) = .ok e := by
  intro source reads
  obtain ⟨Group, Held, g, hg, htrue, hreads⟩ := exists_nested_grammar form
  have hreads (limit : Option Nat) :
      reads limit = (g.read limit source).mapError (·.within source width) :=
    hreads width limit text
  refine ⟨fun hwithin => ?_, fun before k after hscan hk hdeep hbefore => ?_, fun e he => ?_⟩
  · rw [hreads, hreads]
    exact congrArg (Except.mapError _) (hg.run_of_within hwithin)
  · rcases hg.read_past htrue hscan hbefore hk hdeep with ⟨f, hle, hnone, hsome⟩ |
      ⟨hlate, hsome⟩
    · have hnone : reads none = .error (f.within source width) := by rw [hreads, hnone]; rfl
      have hsome : reads (some d) = .error (f.within source width) := by rw [hreads, hsome]; rfl
      refine ⟨fun err herr _ => ?_, fun hlate => absurd (hlate _ hnone) (Nat.not_lt_of_le hle)⟩
      rw [hsome, ← hnone, herr]
    · have hlate : ∀ err, reads none = .error err → k.position < err.position := by
        intro err herr
        rw [hreads] at herr
        obtain ⟨f, hf, rfl⟩ := except_mapError_eq_error.mp herr
        exact hlate f hf
      refine ⟨fun err herr hle => absurd (hlate err herr) (Nat.not_lt_of_le hle), fun _ => ?_⟩
      rw [hreads, hsome]
      rfl
  · rw [hreads] at he
    have hread := except_mapError_eq_ok.mp he
    refine ⟨?_, fun l hl => ?_⟩
    · rw [hreads]
      exact except_mapError_eq_ok.mpr (Grammar.run_of_run (fun _ _ => rfl) hread)
    · rw [hreads]
      exact except_mapError_eq_ok.mpr (Grammar.run_of_run (fun _ => Grammar.excess?_of_le hl) hread)

/-- One group in another. A limit of two lets it be read, and a limit of one stops the
reading at the sign of the inner group. -/
theorem read_limit_inner_group :
    let reads (limit : Option Nat) := (Reader.mk .signFirst 20 limit).read "(+ (* x x) y)"
    let e : Expr := .add (.multiply (.leaf (.var .x)) (.leaf (.var .x))) (.leaf (.var .y))
    reads (some 2) = .ok e ∧ reads none = .ok e ∧
      reads (some 1) = .error (Fault.within ⟨.tooDeep 1, 5⟩ "(+ (* x x) y)".toList 20) := by
  intro reads e
  have htwo : (Reader.mk .signFirst 20 (some 2)).read "(+ (* x x) y)" =
      .ok (.add (.multiply (.leaf (.var .x)) (.leaf (.var .x))) (.leaf (.var .y))) := by rfl
  obtain ⟨-, -, hlifted⟩ := read_limit .signFirst 20 2 "(+ (* x x) y)"
  obtain ⟨-, hpast, -⟩ := read_limit .signFirst 20 1 "(+ (* x x) y)"
  have hnone : reads none = .ok e := (hlifted e htwo).1
  let outer : List Token := [⟨.opening, 1⟩, ⟨.word ['+'], 2⟩]
  let inner : List Token :=
    [⟨.word ['*'], 5⟩, ⟨.word ['x'], 7⟩, ⟨.word ['x'], 9⟩, ⟨.closing, 10⟩,
    ⟨.word ['y'], 12⟩, ⟨.closing, 13⟩]
  have hscan : Token.scan "(+ (* x x) y)".toList = outer ++ ⟨.opening, 4⟩ :: inner := by
    decide +kernel
  have hwithin : Within (1 : Nat) outer := by
    intro before k after hsplit hk
    rcases before with _ | ⟨first, _ | ⟨second, before⟩⟩
    · exact Int.le_refl 1
    · obtain ⟨-, rfl, -⟩ : _ ∧ Token.mk (.word ['+']) 2 = k ∧ [] = after := by
        simpa [outer] using hsplit
      cases hk
    · simp [outer] at hsplit
  refine ⟨htwo, hnone, (hpast outer _ inner hscan rfl (by decide) hwithin).2 fun err herr => ?_⟩
  cases hnone.symm.trans herr

end Reader
end Fluxion
