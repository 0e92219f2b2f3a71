import Mathlib.Data.List.Pairwise
import Mathlib.Logic.ExistsUnique
import Fluxion.Proofs.Reading.Scan

namespace Fluxion.Token

variable {source cs ds : List Char} {c : Char} {t u : Token} {ts us : List Token} {i p : Nat}

/-- The position behind the last character of a token. -/
def stop (t : Token) : Nat := t.position + t.lexeme.chars.length

/-- The token takes in the character with this index, counted from zero. -/
def Spans (t : Token) (i : Nat) : Prop := t.position ≤ i + 1 ∧ i + 1 < t.stop

/-- Tokens that take in every character of a text that is not blank, and as many at a time as there
are between blanks and parentheses. -/
structure Cut (source : List Char) (ts : List Token) : Prop where
  ne_nil : ∀ t ∈ ts, t.lexeme.chars ≠ []
  slice : ∀ t ∈ ts, 1 ≤ t.position ∧ t.lexeme.chars <+: source.drop (t.position - 1)
  increasing : ts.Pairwise fun t u => t.position < u.position
  disjoint : ts.Pairwise fun t u => t.stop ≤ u.position
  covered : ∀ i c, source[i]? = some c → isBlank c = false → ∃! t, t ∈ ts ∧ t.Spans i
  solid : ∀ t ∈ ts, ∀ c ∈ t.lexeme.chars, isBlank c = false
  opening : ∀ t ∈ ts, '(' ∈ t.lexeme.chars → t.lexeme = .opening
  closing : ∀ t ∈ ts, ')' ∈ t.lexeme.chars → t.lexeme = .closing
  separated : ∀ t u cs ds, [t, u] <:+: ts → t.lexeme = .word cs → u.lexeme = .word ds →
    ∃ i c, t.stop ≤ i + 1 ∧ i + 1 < u.position ∧ source[i]? = some c ∧ isBlank c

theorem Proper.ne_nil {l : Lexeme} (hl : Proper l) : l.chars ≠ [] := by
  cases l with
  | opening => simp [Lexeme.chars]
  | closing => simp [Lexeme.chars]
  | word cs => exact IsWord.ne_nil hl

theorem Proper.solid {l : Lexeme} (hl : Proper l) (hc : c ∈ l.chars) : isBlank c = false := by
  cases l with
  | opening =>
    obtain rfl := List.mem_singleton.mp hc
    decide
  | closing =>
    obtain rfl := List.mem_singleton.mp hc
    decide
  | word cs => exact (IsWord.plain hl c hc).1

theorem Proper.opening {l : Lexeme} (hl : Proper l) (hc : '(' ∈ l.chars) : l = .opening := by
  cases l with
  | opening => rfl
  | closing => simp [Lexeme.chars] at hc
  | word cs => exact absurd rfl (IsWord.plain hl _ hc).2.1

theorem Proper.closing {l : Lexeme} (hl : Proper l) (hc : ')' ∈ l.chars) : l = .closing := by
  cases l with
  | opening => simp [Lexeme.chars] at hc
  | closing => rfl
  | word cs => exact absurd rfl (IsWord.plain hl _ hc).2.2

/-- A character that starts a word of its own stands in front of no other word. -/
theorem noWordAt_of_placeBefore {rest : List Token}
    (h : placeBefore c p rest = ⟨.word cs, p⟩ :: rest) : NoWordAt (p + 1) rest := by
  rintro ⟨l, next⟩ ht ds (rfl : l = .word ds) (rfl : next = p + 1)
  obtain ⟨others, rfl⟩ := List.head?_eq_some_iff.mp ht
  by_cases hb : isBlank c
  · simp [placeBefore_blank hb] at h
  · by_cases ho : c = '('
    · simp [ho, placeBefore_opening] at h
    · by_cases hc : c = ')'
      · simp [hc, placeBefore_closing] at h
      · simp [placeBefore, hb, ho, hc] at h

theorem disjoint_scanFrom (p : Nat) (cs : List Char) :
    (scanFrom p cs).Pairwise fun t u => t.stop ≤ u.position := by
  induction cs generalizing p with
  | nil => exact .nil
  | cons c cs ih =>
    have hrest := ih (p + 1)
    rw [scanFrom_cons]
    obtain h | ⟨l, -, hl, h⟩ | ⟨ds, others, -, hds, h⟩ :=
      placeBefore_cases c p (scanFrom (p + 1) cs) <;> rw [h]
    · exact hrest
    · refine List.pairwise_cons.mpr ⟨fun u hu => ?_, hrest⟩
      have hpos := (position_scanFrom hu).1
      simpa [stop, hl] using hpos
    · -- The longer word ends where the one it takes in did.
      rw [hds] at hrest
      obtain ⟨hfirst, hothers⟩ := List.pairwise_cons.mp hrest
      refine List.pairwise_cons.mpr ⟨fun u hu => ?_, hothers⟩
      have hstop := hfirst u hu
      simp only [stop, Lexeme.chars, List.length_cons] at hstop ⊢
      omega

/-- A word ends before the next one starts. -/
theorem separated_scanFrom (p : Nat) (cs : List Char) : (scanFrom p cs).Pairwise fun t u =>
    ∀ ds es, t.lexeme = .word ds → u.lexeme = .word es → t.stop < u.position := by
  induction cs generalizing p with
  | nil => exact .nil
  | cons c cs ih =>
    have hrest := ih (p + 1)
    have hsorted := pairwise_scanFrom (p + 1) cs
    have hpos (u : Token) (hu : u ∈ scanFrom (p + 1) cs) : p + 1 ≤ u.position :=
      (position_scanFrom hu).1
    rw [scanFrom_cons]
    obtain h | ⟨l, -, hl, h⟩ | ⟨ds, others, -, hds, h⟩ :=
      placeBefore_cases c p (scanFrom (p + 1) cs)
    · rw [h]
      exact hrest
    · rw [h]
      refine List.pairwise_cons.mpr ⟨?_, hrest⟩
      rintro u hu ds es (rfl : l = .word ds) hes
      have hne : u.position ≠ p + 1 := by
        intro heq
        have hfirst := noWordAt_of_placeBefore h
        cases hscan : scanFrom (p + 1) cs with
        | nil => simp [hscan] at hu
        | cons v others =>
          rw [hscan] at hu hsorted hpos hfirst
          rcases List.mem_cons.mp hu with rfl | hu
          · exact hfirst u rfl es hes heq
          · have hlt := (List.pairwise_cons.mp hsorted).1 u hu
            have hle := hpos v List.mem_cons_self
            omega
      have hle := hpos u hu
      have hstop : (⟨.word ds, p⟩ : Token).stop = p + 1 := by simp [stop, hl]
      omega
    · rw [h]
      rw [hds] at hrest
      obtain ⟨hfirst, hothers⟩ := List.pairwise_cons.mp hrest
      refine List.pairwise_cons.mpr ⟨fun u hu _ es _ hes => ?_, hothers⟩
      have hstop := hfirst u hu ds es rfl hes
      simp only [stop, Lexeme.chars, List.length_cons] at hstop ⊢
      omega

/-- A character that is not blank is in the first token. -/
theorem exists_mem_placeBefore (hc : isBlank c = false) (p : Nat) (rest : List Token) :
    ∃ t ∈ placeBefore c p rest, t.position = p ∧ p < t.stop := by
  simp only [placeBefore, hc, Bool.false_eq_true, if_false]
  split
  · exact ⟨_, List.mem_cons_self, rfl, by simp [stop, Lexeme.chars]⟩
  · split
    · exact ⟨_, List.mem_cons_self, rfl, by simp [stop, Lexeme.chars]⟩
    · split
      · split <;> exact ⟨_, List.mem_cons_self, rfl, by simp [stop, Lexeme.chars]⟩
      · exact ⟨_, List.mem_cons_self, rfl, by simp [stop, Lexeme.chars]⟩

theorem covered_scanFrom (p : Nat) (hi : cs[i]? = some c) (hc : isBlank c = false) :
    ∃ t ∈ scanFrom p cs, t.position ≤ p + i ∧ p + i < t.stop := by
  induction cs generalizing p i with
  | nil => simp at hi
  | cons d cs ih =>
    rw [scanFrom_cons]
    cases i with
    | zero =>
      obtain rfl : d = c := by simpa using hi
      obtain ⟨t, ht, hpos, hlt⟩ := exists_mem_placeBefore hc p (scanFrom (p + 1) cs)
      exact ⟨t, ht, Nat.le_of_eq hpos, hlt⟩
    | succ i =>
      obtain ⟨t, ht, hle, hlt⟩ := ih (p + 1) (by simpa using hi)
      obtain h | ⟨l, -, -, h⟩ | ⟨ds, others, -, hds, h⟩ :=
        placeBefore_cases d p (scanFrom (p + 1) cs) <;>
        rw [h]
      · exact ⟨t, ht, by omega, by omega⟩
      · exact ⟨t, List.mem_cons_of_mem _ ht, by omega, by omega⟩
      · rw [hds] at ht
        rcases List.mem_cons.mp ht with rfl | ht
        · refine ⟨_, List.mem_cons_self, Nat.le_add_right _ _, ?_⟩
          simp only [stop, Lexeme.chars, List.length_cons] at hlt ⊢
          omega
        · exact ⟨t, List.mem_cons_of_mem _ ht, by omega, by omega⟩

theorem eq_or_disjoint (hts : ts.Pairwise fun t u => t.stop ≤ u.position) (ht : t ∈ ts)
    (hu : u ∈ ts) : t = u ∨ t.stop ≤ u.position ∨ u.stop ≤ t.position := by
  have hsymm : Std.Symm fun t u : Token => t.stop ≤ u.position ∨ u.stop ≤ t.position :=
    ⟨fun _ _ => Or.symm⟩
  have hall : ts.Pairwise fun t u => t.stop ≤ u.position ∨ u.stop ≤ t.position :=
    hts.imp Or.inl
  by_cases heq : t = u
  · exact .inl heq
  · exact .inr (hall.forall ht hu heq)

theorem eq_of_spans (hts : ts.Pairwise fun t u => t.stop ≤ u.position) (ht : t ∈ ts)
    (hu : u ∈ ts) (hti : t.Spans i) (hui : u.Spans i) : t = u := by
  obtain ⟨hle, hlt⟩ := hti
  obtain ⟨hle', hlt'⟩ := hui
  rcases eq_or_disjoint hts ht hu with heq | hstop | hstop
  · exact heq
  · omega
  · omega

/-- Between two tokens in a row, there is no third one. -/
theorem not_between (hts : ts.Pairwise fun t u => t.position < u.position) (htu : [t, u] <:+: ts)
    {v : Token} (hv : v ∈ ts) : ¬ (t.position < v.position ∧ v.position < u.position) := by
  obtain ⟨before, after, rfl⟩ := htu
  rintro ⟨htv, hvu⟩
  obtain ⟨hfirst, -, hafter⟩ := List.pairwise_append.mp hts
  obtain ⟨-, -, hbefore⟩ := List.pairwise_append.mp hfirst
  rcases List.mem_append.mp hv with hv | hv
  · rcases List.mem_append.mp hv with hv | hv
    · have hlt := hbefore v hv t List.mem_cons_self
      omega
    · simp only [List.mem_cons, List.not_mem_nil, or_false] at hv
      obtain rfl | rfl := hv <;> omega
  · have hlt := hafter u (by simp) v hv
    omega

/-- The tokens of a text are its longest runs. -/
theorem scan_cut (source : List Char) : Cut source (scan source) where
  ne_nil _ ht := (proper_of_mem_scanFrom ht).ne_nil
  slice _ ht := ⟨(position_scanFrom ht).1, chars_prefix_drop ht⟩
  increasing := pairwise_scanFrom 1 source
  disjoint := disjoint_scanFrom 1 source
  covered i c hi hc := by
    obtain ⟨t, ht, hle, hlt⟩ := covered_scanFrom 1 hi hc
    have hspans : t.Spans i := ⟨by omega, by omega⟩
    exact ⟨t, ⟨ht, hspans⟩, fun u hu =>
      eq_of_spans (disjoint_scanFrom 1 source) hu.1 ht hu.2 hspans⟩
  solid _ ht _ hc := (proper_of_mem_scanFrom ht).solid hc
  opening _ ht hc := (proper_of_mem_scanFrom ht).opening hc
  closing _ ht hc := (proper_of_mem_scanFrom ht).closing hc
  separated t u cs ds htu hcs hds := by
    have ht : t ∈ scan source := htu.subset List.mem_cons_self
    have hu : u ∈ scan source := htu.subset (by simp)
    have hgap : t.stop < u.position := by
      have hpair := (separated_scanFrom 1 source).sublist htu.sublist
      exact (List.pairwise_cons.mp hpair).1 u List.mem_cons_self cs ds hcs hds
    have hstop : t.position < t.stop :=
      Nat.lt_add_of_pos_right (List.length_pos_iff.mpr (proper_of_mem_scanFrom ht).ne_nil)
    have hlt : t.stop - 1 < source.length := by
      have hpos := (position_scanFrom hu).2
      omega
    refine ⟨t.stop - 1, source[t.stop - 1], by omega, by omega,
      List.getElem?_eq_getElem hlt, ?_⟩
    -- Otherwise there would be a token between the two that takes the character in.
    by_contra hblank
    rw [Bool.not_eq_true] at hblank
    obtain ⟨v, hv, hle, hlt⟩ := covered_scanFrom 1 (List.getElem?_eq_getElem hlt) hblank
    refine not_between (pairwise_scanFrom 1 source) htu hv ⟨?_, by omega⟩
    rcases eq_or_disjoint
      (disjoint_scanFrom 1 source) ht hv with rfl | hdisjoint | hdisjoint <;> omega

/-- A character that words are made of. -/
def Plain (source : List Char) (i : Nat) : Prop :=
  ∃ c, source[i]? = some c ∧ isBlank c = false ∧ c ≠ '(' ∧ c ≠ ')'

theorem Cut.lt_stop (hts : Cut source ts) (ht : t ∈ ts) : t.position < t.stop :=
  Nat.lt_add_of_pos_right (List.length_pos_iff.mpr (hts.ne_nil t ht))

theorem Cut.exists_char (hts : Cut source ts) (ht : t ∈ ts) (hi : t.Spans i) :
    ∃ c ∈ t.lexeme.chars, source[i]? = some c := by
  obtain ⟨hpos, more, hmore⟩ := hts.slice t ht
  obtain ⟨hle, hlt⟩ := hi
  have hk : i - (t.position - 1) < t.lexeme.chars.length := by
    rw [stop] at hlt
    omega
  refine ⟨t.lexeme.chars[i - (t.position - 1)], List.getElem_mem hk, ?_⟩
  have hsum : t.position - 1 + (i - (t.position - 1)) = i := by omega
  calc
    source[i]? = (source.drop (t.position - 1))[i - (t.position - 1)]? := by
      rw [List.getElem?_drop, hsum]
    _ = t.lexeme.chars[i - (t.position - 1)]? := by rw [← hmore, List.getElem?_append_left hk]
    _ = some _ := List.getElem?_eq_getElem hk

/-- A token with a character of words in it is a word. -/
theorem Cut.word_of_spans (hts : Cut source ts) (ht : t ∈ ts) (hi : t.Spans i)
    (hplain : Plain source i) : ∃ cs, t.lexeme = .word cs := by
  obtain ⟨c, hc, hsource⟩ := hts.exists_char ht hi
  obtain ⟨d, hd, -, ho, hcl⟩ := hplain
  obtain rfl : d = c := Option.some.inj (hd.symm.trans hsource)
  cases hl : t.lexeme with
  | opening =>
    rw [hl] at hc
    exact absurd (List.mem_singleton.mp hc) ho
  | closing =>
    rw [hl] at hc
    exact absurd (List.mem_singleton.mp hc) hcl
  | word cs => exact ⟨cs, rfl⟩

theorem Cut.plain_of_spans (hts : Cut source ts) (ht : t ∈ ts) (hi : t.Spans i)
    (hcs : t.lexeme = .word cs) : Plain source i := by
  obtain ⟨c, hc, hsource⟩ := hts.exists_char ht hi
  refine ⟨c, hsource, hts.solid t ht c hc, ?_, ?_⟩
  · rintro rfl
    have heq := hts.opening t ht hc
    rw [hcs] at heq
    cases heq
  · rintro rfl
    have heq := hts.closing t ht hc
    rw [hcs] at heq
    cases heq

/-- No word starts where another one ends. -/
theorem Cut.stop_ne_position (hts : Cut source ts) (ht : t ∈ ts) (hu : u ∈ ts)
    (hcs : t.lexeme = .word cs) (hds : u.lexeme = .word ds) : t.stop ≠ u.position := by
  intro heq
  have hlt := hts.lt_stop ht
  obtain ⟨before, after, rfl⟩ := List.append_of_mem ht
  obtain ⟨-, hrest, hbefore⟩ := List.pairwise_append.mp hts.increasing
  have hu' : u ∈ after := by
    rcases List.mem_append.mp hu with hu | hu
    · have hpos := hbefore u hu t List.mem_cons_self
      omega
    · rcases List.mem_cons.mp hu with rfl | hu
      · omega
      · exact hu
  cases after with
  | nil => cases hu'
  | cons v after =>
    obtain rfl : u = v := by
      rcases List.mem_cons.mp hu' with huv | hu'
      · exact huv
      · -- A token between the two would have no room.
        have hv := hts.lt_stop (t := v) (by simp)
        obtain ⟨-, hdisjoint, -⟩ := List.pairwise_append.mp hts.disjoint
        obtain ⟨hfirst, hafter⟩ := List.pairwise_cons.mp hdisjoint
        have htv := hfirst v List.mem_cons_self
        have hvu := (List.pairwise_cons.mp hafter).1 u hu'
        omega
    obtain ⟨i, c, hle, hlt, -⟩ := hts.separated t u cs ds ⟨before, after, by simp⟩ hcs hds
    omega

/-- A token that takes in one of two such characters in a row takes in the other as well. -/
theorem Cut.spans_succ_iff (hts : Cut source ts) (ht : t ∈ ts) (hi : Plain source i)
    (hnext : Plain source (i + 1)) : t.Spans i ↔ t.Spans (i + 1) := by
  obtain ⟨c, hc, hb, -⟩ := id hi
  obtain ⟨d, hd, hb', -⟩ := id hnext
  obtain ⟨u, ⟨hu, hui⟩, -⟩ := hts.covered i c hc hb
  obtain ⟨v, ⟨hv, hvi⟩, -⟩ := hts.covered (i + 1) d hd hb'
  obtain rfl : u = v := by
    obtain ⟨hle, hlt⟩ := id hui
    obtain ⟨hle', hlt'⟩ := id hvi
    rcases eq_or_disjoint hts.disjoint hu hv with heq | hstop | hstop
    · exact heq
    · obtain ⟨cs, hcs⟩ := hts.word_of_spans hu hui hi
      obtain ⟨ds, hds⟩ := hts.word_of_spans hv hvi hnext
      exact absurd (by omega) (hts.stop_ne_position hu hv hcs hds)
    · omega
  constructor
  · intro h
    rwa [eq_of_spans hts.disjoint ht hu h hui]
  · intro h
    rwa [eq_of_spans hts.disjoint ht hu h hvi]

/-- What one cut has in one word is in one word of any other. -/
theorem Cut.spans_iff (hts : Cut source ts) (hus : Cut source us) (ht : t ∈ ts) (hu : u ∈ us)
    (hcs : t.lexeme = .word cs) {j : Nat} (hij : i ≤ j) (hi : t.Spans i) (hj : t.Spans j) :
    u.Spans i ↔ u.Spans j := by
  induction hij with
  | refl => rfl
  | @step j hle ih =>
    have hij : i ≤ j := hle
    have hmiddle : t.Spans j := ⟨Nat.le_trans hi.1 (by omega), Nat.lt_trans (by omega) hj.2⟩
    rw [ih hmiddle]
    exact hus.spans_succ_iff hu (hts.plain_of_spans ht hmiddle hcs) (hts.plain_of_spans ht hj hcs)

theorem Cut.bounds_of_spans (hts : Cut source ts) (hus : Cut source us) (ht : t ∈ ts)
    (hu : u ∈ us) (hcs : t.lexeme = .word cs) (hti : t.Spans i) (hui : u.Spans i) :
    u.position ≤ t.position ∧ t.stop ≤ u.stop := by
  have hpos := (hts.slice t ht).1
  obtain ⟨hle, hlt⟩ := id hti
  have hfirst : u.Spans (t.position - 1) :=
    (hts.spans_iff hus ht hu hcs (by omega) ⟨by omega, by omega⟩ hti).mpr hui
  have hlast : u.Spans (t.stop - 2) :=
    (hts.spans_iff hus ht hu hcs (by omega) hti ⟨by omega, by omega⟩).mp hui
  obtain ⟨hfirst, -⟩ := hfirst
  obtain ⟨-, hlast⟩ := hlast
  exact ⟨by omega, by omega⟩

/-- Tokens at the same place have the same characters. -/
theorem Cut.chars_eq (hts : Cut source ts) (hus : Cut source us) (ht : t ∈ ts) (hu : u ∈ us)
    (hpos : t.position = u.position) (hstop : t.stop = u.stop) :
    t.lexeme.chars = u.lexeme.chars := by
  have hprefix := (hts.slice t ht).2
  have hprefix' := (hus.slice u hu).2
  rw [← hpos] at hprefix'
  have hlength : t.lexeme.chars.length = u.lexeme.chars.length := by
    simp only [stop] at hstop
    omega
  exact (List.prefix_of_prefix_length_le hprefix hprefix'
    (Nat.le_of_eq hlength)).eq_of_length hlength

theorem Cut.mem_of_mem (hts : Cut source ts) (hus : Cut source us) (ht : t ∈ ts) : t ∈ us := by
  have hpos := (hts.slice t ht).1
  have hlt := hts.lt_stop ht
  have hti : t.Spans (t.position - 1) := ⟨by omega, by omega⟩
  obtain ⟨c, hc, hsource⟩ := hts.exists_char ht hti
  obtain ⟨u, ⟨hu, hui⟩, -⟩ := hus.covered _ c hsource (hts.solid t ht c hc)
  obtain ⟨d, hd, hsource'⟩ := hus.exists_char hu hui
  obtain rfl : c = d := Option.some.inj (hsource.symm.trans hsource')
  obtain ⟨hle, hstop⟩ := id hui
  suffices heq : t = u by rwa [heq]
  obtain ⟨l, p⟩ := t
  obtain ⟨m, q⟩ := u
  cases l with
  | opening =>
    obtain rfl := List.mem_singleton.mp hc
    obtain rfl : m = .opening := hus.opening _ hu hd
    simp only [stop, Lexeme.chars, List.length_singleton] at hle hstop hpos
    rw [Token.mk.injEq]
    exact ⟨rfl, by omega⟩
  | closing =>
    obtain rfl := List.mem_singleton.mp hc
    obtain rfl : m = .closing := hus.closing _ hu hd
    simp only [stop, Lexeme.chars, List.length_singleton] at hle hstop hpos
    rw [Token.mk.injEq]
    exact ⟨rfl, by omega⟩
  | word cs =>
    obtain ⟨ds, hds⟩ := hus.word_of_spans hu hui (hts.plain_of_spans ht hti rfl)
    have hbounds := hts.bounds_of_spans hus ht hu rfl hti hui
    have hbounds' := hus.bounds_of_spans hts hu ht hds hui hti
    obtain rfl : p = q := Nat.le_antisymm hbounds'.1 hbounds.1
    have hchars := hts.chars_eq hus ht hu rfl (Nat.le_antisymm hbounds.2 hbounds'.2)
    obtain rfl : m = .word ds := hds
    rw [show cs = ds from hchars]

theorem Cut.unique (hts : Cut source ts) (hus : Cut source us) : ts = us := by
  have hmem (t : Token) : t ∈ ts ↔ t ∈ us := ⟨hts.mem_of_mem hus, hus.mem_of_mem hts⟩
  have hnodup {ts : List Token} (hts : Cut source ts) : ts.Nodup := by
    refine hts.increasing.imp ?_
    rintro t _ hlt rfl
    exact Nat.lt_irrefl _ hlt
  have hperm := (List.perm_ext_iff_of_nodup (hnodup hts) (hnodup hus)).mpr hmem
  exact hperm.eq_of_pairwise (fun _ _ _ _ hlt hgt => absurd hlt (Nat.lt_asymm hgt)) hts.increasing
    hus.increasing

/-- The tokens of a text are its longest runs of characters that are neither blank nor parentheses,
and the parentheses. What that says of the tokens determines them. -/
theorem cut_iff_eq_scan (text : String) (ts : List Token) :
    Cut text.toList ts ↔ ts = scan text.toList := by
  constructor
  · intro hts
    exact hts.unique (scan_cut _)
  · rintro rfl
    exact scan_cut _

/-- Positions count characters, whatever they take in memory. -/
example : scan "é∂(\u00A0π)".toList =
    [⟨.word ['é', '∂'], 1⟩, ⟨.opening, 3⟩, ⟨.word ['π'], 5⟩,
      ⟨.closing, 6⟩] := by decide

end Fluxion.Token
