import Fluxion.Token

namespace Fluxion.Token

variable {c : Char} {cs ds : List Char} {t : Token} {p q : Nat}

/-- Characters that make up one token: not blank, and no parentheses. -/
structure IsWord (cs : List Char) : Prop where
  ne_nil : cs ≠ []
  plain : ∀ c ∈ cs, isBlank c = false ∧ c ≠ '(' ∧ c ≠ ')'

instance (cs : List Char) : Decidable (IsWord cs) :=
  decidable_of_iff (cs ≠ [] ∧ cs.all fun c => !isBlank c && c != '(' && c != ')') <| by
    constructor
    · rintro ⟨hne, hall⟩
      exact ⟨hne, fun c hc => by simpa [and_assoc] using List.all_eq_true.mp hall c hc⟩
    · rintro ⟨hne, hplain⟩
      exact ⟨hne, List.all_eq_true.mpr fun c hc => by simpa [and_assoc] using hplain c hc⟩

theorem isWord_singleton (hc : isBlank c = false ∧ c ≠ '(' ∧ c ≠ ')') : IsWord [c] :=
  ⟨by simp, by simpa using hc⟩

theorem IsWord.cons (hcs : IsWord cs) (hc : isBlank c = false ∧ c ≠ '(' ∧ c ≠ ')') :
    IsWord (c :: cs) := by
  refine ⟨by simp, fun d hd => ?_⟩
  rcases List.mem_cons.mp hd with rfl | hd
  · exact hc
  · exact hcs.plain d hd

/-- What a text can be cut into: parentheses, and words as such. -/
def Proper : Lexeme → Prop
  | .word cs => IsWord cs
  | _ => True

/-- No token goes on into the characters. -/
def Apart (cs : List Char) : Prop := ∀ c ∈ cs.head?, isBlank c ∨ c = '(' ∨ c = ')'

theorem apart_nil : Apart [] := by simp [Apart]

theorem apart_blank (hc : isBlank c) : Apart (c :: cs) := by simp [Apart, hc]

theorem apart_closing : Apart (')' :: cs) := by simp [Apart]

theorem placeBefore_blank (hc : isBlank c) (p : Nat) (rest : List Token) :
    placeBefore c p rest = rest := by
  simp [placeBefore, hc]

theorem placeBefore_opening (p : Nat) (rest : List Token) :
    placeBefore '(' p rest = ⟨.opening, p⟩ :: rest := by
  have h : isBlank '(' = false := by decide
  simp [placeBefore, h]

theorem placeBefore_closing (p : Nat) (rest : List Token) :
    placeBefore ')' p rest = ⟨.closing, p⟩ :: rest := by
  have h : isBlank ')' = false := by decide
  simp [placeBefore, h]

/-- No token is a word that starts at a position. -/
def NoWordAt (p : Nat) (ts : List Token) : Prop :=
  ∀ t ∈ ts.head?, ∀ cs, t.lexeme = .word cs → t.position ≠ p

theorem placeBefore_word (hb : isBlank c = false) (ho : c ≠ '(') (hc : c ≠ ')')
    {rest : List Token} (hr : NoWordAt (p + 1) rest) :
    placeBefore c p rest = ⟨.word [c], p⟩ :: rest := by
  simp only [placeBefore, hb, ho, hc, if_false, Bool.false_eq_true]
  split
  · rename_i cs next others
    exact if_neg (hr _ rfl cs rfl)
  · rfl

/-- Only the first of the tokens can change. -/
theorem placeBefore_append {rest more : List Token} (h : rest = [] → NoWordAt (p + 1) more) :
    placeBefore c p (rest ++ more) = placeBefore c p rest ++ more := by
  by_cases hb : isBlank c
  · simp [placeBefore_blank hb]
  · by_cases ho : c = '('
    · subst c
      simp [placeBefore_opening]
    · by_cases hc : c = ')'
      · subst c
        simp [placeBefore_closing]
      · cases rest with
        | nil =>
          have hb : isBlank c = false := by simpa using hb
          rw [List.nil_append, placeBefore_word hb ho hc (h rfl),
            placeBefore_word hb ho hc (by simp [NoWordAt])]
          rfl
        | cons first rest =>
          obtain ⟨lexeme, next⟩ := first
          simp only [placeBefore, hb, ho, hc, if_false, List.cons_append]
          cases lexeme with
          | opening => rfl
          | closing => rfl
          | word cs => by_cases hn : next = p + 1 <;> simp [hn]

/-- A character is passed over, starts a token, or joins the word right behind it. -/
theorem placeBefore_cases (c : Char) (p : Nat) (rest : List Token) :
    placeBefore c p rest = rest ∨
      (∃ l, Proper l ∧ l.chars = [c] ∧ placeBefore c p rest = ⟨l, p⟩ :: rest) ∨
      ∃ cs others, (isBlank c = false ∧ c ≠ '(' ∧ c ≠ ')') ∧
        rest = ⟨.word cs, p + 1⟩ :: others ∧
        placeBefore c p rest = ⟨.word (c :: cs), p⟩ :: others := by
  by_cases hb : isBlank c
  · exact .inl (placeBefore_blank hb p rest)
  · refine .inr ?_
    by_cases ho : c = '('
    · subst c
      exact .inl ⟨.opening, trivial, rfl, placeBefore_opening p rest⟩
    · by_cases hc : c = ')'
      · subst c
        exact .inl ⟨.closing, trivial, rfl, placeBefore_closing p rest⟩
      · have hplain : isBlank c = false ∧ c ≠ '(' ∧ c ≠ ')' :=
          ⟨by simpa using hb, ho, hc⟩
        have hnew (hr : NoWordAt (p + 1) rest) :
            placeBefore c p rest = ⟨.word [c], p⟩ :: rest :=
          placeBefore_word hplain.1 ho hc hr
        match rest with
        | [] => exact .inl ⟨.word [c], isWord_singleton hplain, rfl, hnew (by simp [NoWordAt])⟩
        | ⟨.word cs, next⟩ :: others =>
          by_cases hn : next = p + 1
          · subst next
            exact .inr ⟨cs, others, hplain, rfl, by simp [placeBefore, hplain]⟩
          · exact .inl ⟨.word [c], isWord_singleton hplain, rfl, hnew (by simp [NoWordAt, hn])⟩
        | ⟨.opening, _⟩ :: _ =>
          exact .inl ⟨.word [c], isWord_singleton hplain, rfl, hnew (by simp [NoWordAt])⟩
        | ⟨.closing, _⟩ :: _ =>
          exact .inl ⟨.word [c], isWord_singleton hplain, rfl, hnew (by simp [NoWordAt])⟩

theorem mem_placeBefore {rest : List Token} (ht : t ∈ placeBefore c p rest) :
    t.position = p ∨ t ∈ rest := by
  obtain h | ⟨l, -, -, h⟩ | ⟨cs, others, -, rfl, h⟩ :=
    placeBefore_cases c p rest <;> rw [h] at ht
  · exact .inr ht
  · rcases List.mem_cons.mp ht with rfl | ht
    · exact .inl rfl
    · exact .inr ht
  · rcases List.mem_cons.mp ht with rfl | ht
    · exact .inl rfl
    · exact .inr (List.mem_cons_of_mem _ ht)

theorem scanFrom_cons (p : Nat) (c : Char) (cs : List Char) :
    scanFrom p (c :: cs) = placeBefore c p (scanFrom (p + 1) cs) := rfl

/-- Tokens lie inside the characters they were cut from. -/
theorem position_scanFrom (ht : t ∈ scanFrom p cs) :
    p ≤ t.position ∧ t.position < p + cs.length := by
  induction cs generalizing p with
  | nil => cases ht
  | cons c cs ih =>
    rw [scanFrom_cons] at ht
    rw [List.length_cons]
    rcases mem_placeBefore ht with heq | ht
    · omega
    · have h := ih ht
      omega

theorem proper_of_mem_scanFrom (ht : t ∈ scanFrom p cs) : Proper t.lexeme := by
  induction cs generalizing p t with
  | nil => cases ht
  | cons c cs ih =>
    rw [scanFrom_cons] at ht
    obtain h | ⟨l, hl, -, h⟩ | ⟨ds, others, hc, hrest, h⟩ :=
      placeBefore_cases c p (scanFrom (p + 1) cs) <;> rw [h] at ht
    · exact ih ht
    · rcases List.mem_cons.mp ht with rfl | ht
      · exact hl
      · exact ih ht
    · have hmem (u : Token) (hu : u ∈ ⟨.word ds, p + 1⟩ :: others) : Proper u.lexeme :=
        ih (p := p + 1) (hrest ▸ hu)
      rcases List.mem_cons.mp ht with rfl | ht
      · exact IsWord.cons (hmem _ List.mem_cons_self) hc
      · exact hmem t (List.mem_cons_of_mem _ ht)

/-- The characters of a token stand in the text from its position on. -/
theorem chars_prefix_drop (ht : t ∈ scanFrom p cs) :
    t.lexeme.chars <+: cs.drop (t.position - p) := by
  induction cs generalizing p t with
  | nil => cases ht
  | cons c cs ih =>
    -- A token of the characters behind the first one stands one place further on.
    have hlater {u : Token} (hu : u ∈ scanFrom (p + 1) cs) :
        u.lexeme.chars <+: (c :: cs).drop (u.position - p) := by
      have hpos := (position_scanFrom hu).1
      have hdrop : u.position - p = u.position - (p + 1) + 1 := by omega
      rw [hdrop, List.drop_succ_cons]
      exact ih hu
    rw [scanFrom_cons] at ht
    obtain h | ⟨l, -, hl, h⟩ | ⟨ds, others, -, hrest, h⟩ :=
      placeBefore_cases c p (scanFrom (p + 1) cs) <;> rw [h] at ht
    · exact hlater ht
    · rcases List.mem_cons.mp ht with rfl | ht
      · simp [hl]
      · exact hlater ht
    · have hword : ds <+: cs := by
        have hfirst : ⟨.word ds, p + 1⟩ ∈ scanFrom (p + 1) cs := hrest ▸ List.mem_cons_self
        simpa [Lexeme.chars] using ih hfirst
      rw [hrest] at hlater
      rcases List.mem_cons.mp ht with rfl | ht
      · simpa [Lexeme.chars] using hword
      · exact hlater (List.mem_cons_of_mem _ ht)

/-- Tokens stand one behind the other. -/
theorem pairwise_scanFrom (p : Nat) (cs : List Char) :
    (scanFrom p cs).Pairwise fun t u => t.position < u.position := by
  induction cs generalizing p with
  | nil => exact .nil
  | cons c cs ih =>
    have hrest := ih (p + 1)
    have hlt : ∀ t ∈ scanFrom (p + 1) cs, p < t.position := fun t ht => (position_scanFrom ht).1
    rw [scanFrom_cons]
    obtain h | ⟨l, -, -, h⟩ | ⟨ds, others, -, hds, h⟩ :=
      placeBefore_cases c p (scanFrom (p + 1) cs) <;> rw [h]
    · exact hrest
    · exact List.pairwise_cons.mpr ⟨hlt, hrest⟩
    · rw [hds] at hrest hlt
      refine List.pairwise_cons.mpr ⟨fun t ht => ?_, (List.pairwise_cons.mp hrest).2⟩
      exact hlt t (List.mem_cons_of_mem _ ht)

theorem noWordAt_scanFrom (h : Apart cs) (p : Nat) : NoWordAt p (scanFrom p cs) := by
  cases cs with
  | nil => simp [NoWordAt, scanFrom]
  | cons c cs =>
    rw [scanFrom_cons]
    intro t ht ds hword
    obtain hc | rfl | rfl := h c rfl
    · rw [placeBefore_blank hc] at ht
      have hpos := position_scanFrom (List.mem_of_mem_head? ht)
      omega
    · rw [placeBefore_opening] at ht
      obtain rfl := Option.some.inj ht
      cases hword
    · rw [placeBefore_closing] at ht
      obtain rfl := Option.some.inj ht
      cases hword

/-- Characters that no token goes on into are cut by themselves. -/
theorem scanFrom_append (h : Apart ds) (p : Nat) (cs : List Char) :
    scanFrom p (cs ++ ds) = scanFrom p cs ++ scanFrom (p + cs.length) ds := by
  induction cs generalizing p with
  | nil => rfl
  | cons c cs ih =>
    have hlen : p + 1 + cs.length = p + (c :: cs).length := by
      rw [List.length_cons]
      omega
    have hnext :
        scanFrom (p + 1) cs = [] → NoWordAt (p + 1) (scanFrom (p + 1 + cs.length) ds) := by
      intro _
      cases cs with
      | nil => exact noWordAt_scanFrom h _
      | cons d cs =>
        intro t ht _ _
        have hpos := position_scanFrom (List.mem_of_mem_head? ht)
        rw [List.length_cons] at hpos
        omega
    rw [List.cons_append, scanFrom_cons, ih, placeBefore_append hnext, scanFrom_cons, hlen]

theorem filter_position_of_lt {ts : List Token} (h : ∀ t ∈ ts, t.position < p) :
    ts.filter (·.position < p) = ts := List.filter_eq_self.mpr fun t ht => by simpa using h t ht

theorem filter_position_of_le {ts : List Token} (h : ∀ t ∈ ts, p ≤ t.position) :
    ts.filter (·.position < p) = [] := List.filter_eq_nil_iff.mpr fun t ht => by simpa using h t ht

/-- The tokens in front of a position are the first of them. -/
theorem filter_position_prefix {ts : List Token}
    (hts : ts.Pairwise fun t u => t.position < u.position) (p : Nat) :
    ts.filter (·.position < p) <+: ts := by
  induction ts with
  | nil => exact List.prefix_rfl
  | cons t ts ih =>
    obtain ⟨hfirst, hrest⟩ := List.pairwise_cons.mp hts
    by_cases ht : t.position < p
    · rw [List.filter_cons_of_pos (by simpa using ht)]
      exact (List.prefix_cons_inj t).mpr (ih hrest)
    · have hle := Nat.le_of_not_lt ht
      rw [filter_position_of_le (List.forall_mem_cons.mpr
        ⟨hle, fun u hu => Nat.le_trans hle (Nat.le_of_lt (hfirst u hu))⟩)]
      exact List.nil_prefix

theorem filter_position_eq {before after : List Token}
    (hts : (before ++ t :: after).Pairwise fun t u => t.position < u.position) :
    (before ++ t :: after).filter (·.position < t.position) = before := by
  obtain ⟨-, hafter, hbefore⟩ := List.pairwise_append.mp hts
  have hlt (u : Token) (hu : u ∈ before) : u.position < t.position :=
    hbefore u hu t List.mem_cons_self
  have hle : ∀ u ∈ t :: after, t.position ≤ u.position :=
    List.forall_mem_cons.mpr ⟨Nat.le_refl _,
      fun u hu => Nat.le_of_lt ((List.pairwise_cons.mp hafter).1 u hu)⟩
  rw [List.filter_append, filter_position_of_lt hlt, filter_position_of_le hle, List.append_nil]

/-- A character joins no token that starts right behind it and is still there. -/
theorem placeBefore_eq_append {rest : List Token}
    (hrest : rest.Pairwise fun t u => t.position < u.position) (ht : t ∈ placeBefore c p rest)
    (hp : t.position = p + 1) : placeBefore c p rest = placeBefore c p [] ++ rest := by
  by_cases hplain : isBlank c = false ∧ c ≠ '(' ∧ c ≠ ')'
  · refine @placeBefore_append _ _ [] rest fun _ => ?_
    rintro ⟨l, next⟩ hfirst ds (rfl : l = .word ds) (rfl : next = p + 1)
    obtain ⟨others, rfl⟩ := List.head?_eq_some_iff.mp hfirst
    simp only [placeBefore, hplain, if_true, if_false, Bool.false_eq_true] at ht
    rcases List.mem_cons.mp ht with rfl | ht
    · exact absurd hp (Nat.ne_of_lt (Nat.lt_succ_self p))
    · have hlt : p + 1 < t.position := (List.pairwise_cons.mp hrest).1 t ht
      omega
  · by_cases hb : isBlank c
    · simp [placeBefore_blank hb]
    · by_cases ho : c = '('
      · simp [ho, placeBefore_opening]
      · have hc : c = ')' := Decidable.of_not_not fun hc => hplain ⟨by simpa using hb, ho, hc⟩
        simp [hc, placeBefore_closing]

/-- Where a token starts, the characters before it are cut by themselves. -/
theorem scanFrom_split {n : Nat} (ht : t ∈ scanFrom p cs) (hn : t.position = p + n) :
    scanFrom p cs = scanFrom p (cs.take n) ++ scanFrom (p + n) (cs.drop n) := by
  induction cs generalizing p n with
  | nil => cases ht
  | cons c cs ih =>
    rw [scanFrom_cons] at ht
    match n with
    | 0 => rfl
    | 1 => exact placeBefore_eq_append (pairwise_scanFrom (p + 1) cs) ht hn
    | n + 2 =>
      have hmem : t ∈ scanFrom (p + 1) cs := (mem_placeBefore ht).resolve_left (by omega)
      have hsum : p + (n + 2) = p + 1 + (n + 1) := by omega
      rw [List.take_succ_cons, List.drop_succ_cons, scanFrom_cons, scanFrom_cons, hsum,
        ih hmem (hn.trans hsum)]
      refine placeBefore_append fun _ u hu _ _ => ?_
      have hpos := (position_scanFrom (List.mem_of_mem_head? hu)).1
      omega

/-- The tokens in front of one of them are those of the text in front of it. -/
theorem scan_take {source : List Char} (ht : t ∈ scan source) :
    scan (source.take (t.position - 1)) = (scan source).filter (·.position < t.position) := by
  have hpos := (position_scanFrom ht).1
  have hsum : 1 + (t.position - 1) = t.position := by omega
  have hfront (u : Token) (hu : u ∈ scanFrom 1 (source.take (t.position - 1))) :
      u.position < t.position := by
    have hlt := (position_scanFrom hu).2
    rw [List.length_take] at hlt
    omega
  have hback (u : Token) (hu : u ∈ scanFrom t.position (source.drop (t.position - 1))) :
      t.position ≤ u.position := (position_scanFrom hu).1
  have hsplit := scanFrom_split ht hsum.symm
  rw [hsum] at hsplit
  rw [scan, scan, hsplit, List.filter_append, filter_position_of_lt hfront,
    filter_position_of_le hback, List.append_nil]

def shift (k : Nat) (t : Token) : Token := ⟨t.lexeme, t.position + k⟩

theorem placeBefore_shift (c : Char) (p k : Nat) (rest : List Token) :
    placeBefore c (p + k) (rest.map (shift k)) = (placeBefore c p rest).map (shift k) := by
  unfold placeBefore
  split
  · rfl
  · split
    · rfl
    · split
      · rfl
      · cases rest with
        | nil => rfl
        | cons first rest =>
          obtain ⟨lexeme, next⟩ := first
          have hnext : next + k = p + k + 1 ↔ next = p + 1 := by omega
          cases lexeme with
          | opening => rfl
          | closing => rfl
          | word cs => by_cases hn : next = p + 1 <;> simp [shift, hnext, hn, Nat.add_right_comm]

theorem scanFrom_add (p k : Nat) (cs : List Char) :
    scanFrom (p + k) cs = (scanFrom p cs).map (shift k) := by
  induction cs generalizing p with
  | nil => rfl
  | cons c cs ih => rw [scanFrom_cons, Nat.add_right_comm, ih, placeBefore_shift, scanFrom_cons]

/-- The lexemes of a text, in order. -/
def lexemes (cs : List Char) : List Lexeme := (scan cs).map Token.lexeme

theorem lexeme_scanFrom (p : Nat) (cs : List Char) :
    (scanFrom (1 + p) cs).map Token.lexeme = lexemes cs := by
  rw [scanFrom_add, List.map_map]
  rfl

theorem lexemes_append (h : Apart ds) (cs : List Char) :
    lexemes (cs ++ ds) = lexemes cs ++ lexemes ds := by
  rw [lexemes, scan, scanFrom_append h, List.map_append, lexeme_scanFrom]
  rfl

theorem lexemes_blank (hc : isBlank c) (cs : List Char) : lexemes (c :: cs) = lexemes cs := by
  rw [lexemes, scan, scanFrom_cons, placeBefore_blank hc, lexeme_scanFrom]

theorem lexemes_opening (cs : List Char) : lexemes ('(' :: cs) = .opening :: lexemes cs := by
  rw [lexemes, scan, scanFrom_cons, placeBefore_opening, List.map_cons, lexeme_scanFrom]

theorem lexemes_closing (cs : List Char) : lexemes (')' :: cs) = .closing :: lexemes cs := by
  rw [lexemes, scan, scanFrom_cons, placeBefore_closing, List.map_cons, lexeme_scanFrom]

theorem scanFrom_word (h : IsWord cs) (p : Nat) : scanFrom p cs = [⟨.word cs, p⟩] := by
  induction cs generalizing p with
  | nil => exact absurd rfl h.ne_nil
  | cons c cs ih =>
    obtain ⟨hb, ho, hc⟩ := h.plain c List.mem_cons_self
    rw [scanFrom_cons]
    cases cs with
    | nil => exact placeBefore_word hb ho hc (by simp [NoWordAt, scanFrom])
    | cons d cs =>
      rw [ih ⟨by simp, fun e he => h.plain e (List.mem_cons_of_mem _ he)⟩]
      simp [placeBefore, hb, ho, hc]

theorem lexemes_word (h : IsWord cs) : lexemes cs = [.word cs] := by
  rw [lexemes, scan, scanFrom_word h]
  rfl

theorem lexemes_chars {l : Lexeme} (hl : Proper l) : lexemes l.chars = [l] := by
  cases l with
  | opening => exact lexemes_opening []
  | closing => exact lexemes_closing []
  | word cs => exact lexemes_word hl

/-- A text of some lexemes, with a blank before each. -/
def spaced (ls : List Lexeme) : List Char := ls.flatMap fun l => ' ' :: l.chars

theorem lexemes_spaced {ls : List Lexeme} (hls : ∀ l ∈ ls, Proper l) :
    lexemes (spaced ls) = ls := by
  have hblank : isBlank ' ' := by decide
  induction ls with
  | nil => rfl
  | cons l ls ih =>
    have hapart : Apart (spaced ls) := by
      cases ls with
      | nil => exact apart_nil
      | cons m ls => exact apart_blank hblank
    rw [spaced, List.flatMap_cons, List.cons_append, lexemes_blank hblank]
    change lexemes (l.chars ++ spaced ls) = l :: ls
    rw [lexemes_append hapart, lexemes_chars (hls l List.mem_cons_self),
      ih fun m hm => hls m (List.mem_cons_of_mem _ hm)]
    rfl

end Fluxion.Token
