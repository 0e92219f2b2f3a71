import Mathlib.Data.List.Induction
import Fluxion.Expr.Walk
import Fluxion.Proofs.Expr.Position

namespace Fluxion.Expr

/-- A position that a visitor was shown, the state it was in, its
answer, and the state it was left in. -/
structure Visit (σ : Type) where
  path : List Nat
  before : σ
  goesOn : Bool
  after : σ

variable {σ : Type} {visit : Visitor σ} {place : List Nat → Option Expr} {s t u : σ}
  {vs ws front visits : List (Visit σ)} {v w : Visit σ} {e : Expr} {es : List Expr}
  {op : Operator} {path : List Nat} {i : Nat}

/-- From one state to another, each visit starting where the one before it ended. -/
def Linked (s : σ) : List (Visit σ) → σ → Prop
  | [], t => s = t
  | v :: vs, t => v.before = s ∧ Linked v.after vs t

theorem linked_append : Linked s (vs ++ ws) t ↔ ∃ u, Linked s vs u ∧ Linked u ws t := by
  induction vs generalizing s with
  | nil => simp [Linked]
  | cons v vs ih => simp [Linked, ih, and_assoc]

theorem Linked.unique (h : Linked s vs t) (h' : Linked s vs u) : t = u := by
  induction vs generalizing s with
  | nil => exact h.symm.trans h'
  | cons v vs ih => exact ih h.2 h'.2

theorem linked_map {f : Visit σ → Visit σ} (hbefore : ∀ v, (f v).before = v.before)
    (hafter : ∀ v, (f v).after = v.after) : Linked s (vs.map f) t ↔ Linked s vs t := by
  induction vs generalizing s with
  | nil => rfl
  | cons v vs ih => simp only [List.map_cons, Linked, hbefore, hafter, ih]

/-- No node above the position was turned down. -/
def Open (visits : List (Visit σ)) (path : List Nat) : Prop :=
  ∀ v ∈ visits, v.path <+: path → v.path ≠ path → v.goesOn = true

theorem open_append : Open (vs ++ ws) path ↔ Open vs path ∧ Open ws path :=
  List.forall_mem_append

theorem open_root (visits : List (Visit σ)) : Open visits [] :=
  fun _ _ habove hne => absurd (List.prefix_nil.mp habove) hne

/-- A tour of the positions that have a place: those that stay open, in order. -/
structure Tour (visit : Visitor σ) (place : List Nat → Option Expr) (s : σ)
    (visits : List (Visit σ)) (t : σ) : Prop where
  answers : ∀ v ∈ visits, ∃ node, place v.path = some node ∧
    visit node v.before = (v.goesOn, v.after)
  linked : Linked s visits t
  reached_iff :
    ∀ path, path ∈ visits.map Visit.path ↔ (place path).isSome ∧ Open visits path
  ordered : visits.Pairwise fun v w => v.path < w.path

/-- After the same visits, no tour can pass over what another one comes to next. -/
theorem Tour.exists_next (h : Tour visit place s (front ++ v :: vs) t)
    (h' : Tour visit place s (front ++ ws) u) :
    ∃ w others, ws = w :: others ∧ ¬v.path < w.path := by
  obtain ⟨-, -, hbehind⟩ := List.pairwise_append.mp h.ordered
  obtain ⟨-, hsorted, -⟩ := List.pairwise_append.mp h'.ordered
  by_contra hnone
  have hall : ∀ w ∈ ws, v.path < w.path := by
    cases ws with
    | nil => exact fun w hw => nomatch hw
    | cons first others =>
      have hfirst : v.path < first.path :=
        not_not.mp fun hnot => hnone ⟨first, others, rfl, hnot⟩
      intro w hw
      rcases List.mem_cons.mp hw with rfl | hw
      · exact hfirst
      · exact List.lt_trans hfirst ((List.pairwise_cons.mp hsorted).1 w hw)
  -- What is above the position was visited before it, and so by both.
  have hmem : v.path ∈ (front ++ ws).map Visit.path := by
    obtain ⟨hplace, hopen⟩ := (h.reached_iff v.path).mp (by simp)
    refine (h'.reached_iff v.path).mpr
      ⟨hplace, open_append.mpr ⟨(open_append.mp hopen).1, ?_⟩⟩
    intro w hw habove hne
    exact absurd (List.lt_trans (hall w hw) (lt_of_above habove hne)) (List.lt_irrefl _)
  obtain ⟨w, hw, heq⟩ := List.mem_map.mp hmem
  rcases List.mem_append.mp hw with hw | hw
  · have hlt := hbehind w hw v List.mem_cons_self
    rw [heq] at hlt
    exact List.lt_irrefl _ hlt
  · have hlt := hall w hw
    rw [heq] at hlt
    exact List.lt_irrefl _ hlt

theorem Tour.next_eq (h : Tour visit place s (front ++ v :: vs) t)
    (h' : Tour visit place s (front ++ w :: ws) u) (hpath : v.path = w.path) : v = w := by
  obtain ⟨m, hm, hv, -⟩ := linked_append.mp h.linked
  obtain ⟨m', hm', hw, -⟩ := linked_append.mp h'.linked
  obtain rfl : m = m' := hm.unique hm'
  obtain ⟨node, hnode, hanswer⟩ := h.answers v (by simp)
  obtain ⟨node', hnode', hanswer'⟩ := h'.answers w (by simp)
  obtain rfl : node = node' := by
    rw [hpath] at hnode
    exact Option.some.inj (hnode.symm.trans hnode')
  obtain ⟨path, before, goesOn, after⟩ := v
  obtain ⟨path', before', goesOn', after'⟩ := w
  simp only at hpath hv hw hanswer hanswer'
  subst hpath hv hw
  obtain ⟨rfl, rfl⟩ := Prod.mk.inj (hanswer.symm.trans hanswer')
  rfl

theorem Tour.rest_eq (h : Tour visit place s (front ++ vs) t)
    (h' : Tour visit place s (front ++ ws) u) : vs = ws := by
  induction vs generalizing front ws with
  | nil =>
    cases ws with
    | nil => rfl
    | cons w ws =>
      obtain ⟨_, _, hnil, -⟩ := h'.exists_next h
      cases hnil
  | cons v vs ih =>
    obtain ⟨w, others, rfl, hnot⟩ := h.exists_next h'
    obtain ⟨_, _, hcons, hnot'⟩ := h'.exists_next h
    obtain ⟨rfl, rfl⟩ := List.cons.inj hcons
    obtain rfl := h.next_eq h' (List.le_antisymm hnot' hnot)
    have hrest : vs = others := @ih others (front ++ [v]) (by simpa using h) (by simpa using h')
    rw [hrest]

theorem Tour.unique (h : Tour visit place s vs t) (h' : Tour visit place s ws u) :
    vs = ws ∧ t = u := by
  obtain rfl : vs = ws := @rest_eq _ _ _ _ _ _ _ _ [] h h'
  exact ⟨rfl, h.linked.unique h'.linked⟩

/-- A visit as it looks from outside of the operands it was made below. -/
def Visit.below (i : Nat) (v : Visit σ) : Visit σ := { v with path := i :: v.path }

theorem linked_below : Linked s (vs.map (Visit.below i)) t ↔ Linked s vs t :=
  linked_map (f := Visit.below i) (fun _ => rfl) fun _ => rfl

theorem open_below : Open (vs.map (Visit.below i)) (i :: path) ↔ Open vs path := by
  simp [Open, Visit.below]

theorem mem_below :
    i :: path ∈ (vs.map (Visit.below i)).map Visit.path ↔ path ∈ vs.map Visit.path := by
  simp [Visit.below]

/-- What is visited below one operand neither opens nor closes a position below another. -/
theorem open_of_heads (h : ∀ v ∈ vs, ∃ j steps, v.path = j :: steps ∧ j ≠ i) :
    Open vs (i :: path) := by
  intro v hv habove
  obtain ⟨j, steps, hpath, hj⟩ := h v hv
  rw [hpath] at habove
  exact absurd (List.cons_prefix_cons.mp habove).1 hj

theorem not_mem_of_heads (h : ∀ v ∈ vs, ∃ j steps, v.path = j :: steps ∧ j ≠ i) :
    i :: path ∉ vs.map Visit.path := by
  intro hmem
  obtain ⟨v, hv, hpath⟩ := List.mem_map.mp hmem
  obtain ⟨j, steps, hpath', hj⟩ := h v hv
  rw [hpath] at hpath'
  exact hj (List.cons.inj hpath').1.symm

theorem Tour.nil (hplace : ∀ path, place path = none) (s : σ) : Tour visit place s [] s where
  answers := by simp
  linked := rfl
  reached_iff := by simp [hplace]
  ordered := .nil

/-- The visits below some operands are followed by those below one more. -/
theorem Tour.concat (h : Tour visit (below? es) s vs t) (he : Tour visit e.at? t ws u) :
    Tour visit (below? (es ++ [e])) s (vs ++ ws.map (Visit.below es.length)) u := by
  have hfront : ∀ v ∈ vs, ∃ j steps, v.path = j :: steps ∧ j < es.length := by
    intro v hv
    obtain ⟨node, hnode, -⟩ := h.answers v hv
    exact exists_cons_of_below? hnode
  have hback :
      ∀ v ∈ ws.map (Visit.below es.length), ∃ steps, v.path = es.length :: steps := by
    intro v hv
    obtain ⟨w, -, rfl⟩ := List.mem_map.mp hv
    exact ⟨w.path, rfl⟩
  refine ⟨?_, linked_append.mpr ⟨t, h.linked, linked_below.mpr he.linked⟩, ?_, ?_⟩
  · intro v hv
    rcases List.mem_append.mp hv with hv | hv
    · obtain ⟨j, steps, hpath, hj⟩ := hfront v hv
      obtain ⟨node, hnode, hanswer⟩ := h.answers v hv
      rw [hpath] at hnode
      exact ⟨node, by rw [hpath, below?_concat_of_ne (Nat.ne_of_lt hj), hnode], hanswer⟩
    · obtain ⟨w, hw, rfl⟩ := List.mem_map.mp hv
      obtain ⟨node, hnode, hanswer⟩ := he.answers w hw
      exact ⟨node, below?_concat_length.trans hnode, hanswer⟩
  · intro path
    cases path with
    | nil =>
      refine iff_of_false (fun hmem => ?_) (by simp [below?])
      obtain ⟨v, hv, hpath⟩ := List.mem_map.mp hmem
      rcases List.mem_append.mp hv with hv | hv
      · obtain ⟨j, steps, hcons, -⟩ := hfront v hv
        rw [hpath] at hcons
        cases hcons
      · obtain ⟨steps, hcons⟩ := hback v hv
        rw [hpath] at hcons
        cases hcons
    | cons i path =>
      rw [List.map_append, List.mem_append, open_append]
      by_cases hi : i = es.length
      · subst hi
        have hother : ∀ v ∈ vs,
            ∃ j steps, v.path = j :: steps ∧ j ≠ es.length := fun v hv =>
          (hfront v hv).imp fun j => Exists.imp fun steps => And.imp_right Nat.ne_of_lt
        rw [below?_concat_length, open_below, mem_below, he.reached_iff,
          or_iff_right (not_mem_of_heads hother)]
        simp [open_of_heads hother]
      · have hother : ∀ v ∈ ws.map (Visit.below es.length),
            ∃ j steps, v.path = j :: steps ∧ j ≠ i := fun v hv =>
          ⟨es.length, (hback v hv).imp fun steps hpath => ⟨hpath, Ne.symm hi⟩⟩
        rw [below?_concat_of_ne hi, h.reached_iff, or_iff_left (not_mem_of_heads hother)]
        simp [open_of_heads hother]
  · refine List.pairwise_append.mpr ⟨h.ordered, ?_, ?_⟩
    · refine List.pairwise_map.mpr (he.ordered.imp fun hlt => ?_)
      exact List.cons_lt_cons_iff.mpr (.inr ⟨rfl, hlt⟩)
    · intro v hv w hw
      obtain ⟨j, steps, hpath, hj⟩ := hfront v hv
      obtain ⟨steps', hpath'⟩ := hback w hw
      rw [hpath, hpath']
      exact List.cons_lt_cons_iff.mpr (.inl hj)

/-- A node comes before what is visited below it. -/
theorem Tour.cons (hvisit : visit (.operation op es) s = (true, t))
    (h : Tour visit (below? es) t vs u) :
    Tour visit (at? (.operation op es)) s (⟨[], s, true, t⟩ :: vs) u := by
  have hbelow : ∀ v ∈ vs, ∃ j steps, v.path = j :: steps := by
    intro v hv
    obtain ⟨node, hnode, -⟩ := h.answers v hv
    obtain ⟨j, steps, hpath, -⟩ := exists_cons_of_below? hnode
    exact ⟨j, steps, hpath⟩
  refine ⟨?_, ⟨rfl, h.linked⟩, ?_, ?_⟩
  · refine List.forall_mem_cons.mpr ⟨⟨_, rfl, hvisit⟩, fun v hv => ?_⟩
    obtain ⟨j, steps, hpath⟩ := hbelow v hv
    obtain ⟨node, hnode, hanswer⟩ := h.answers v hv
    rw [hpath] at hnode
    exact ⟨node, by rw [hpath, at?_operation_cons, hnode], hanswer⟩
  · intro path
    cases path with
    | nil => simp [open_root]
    | cons i path =>
      have hreached := h.reached_iff (i :: path)
      simpa [Open] using hreached
  · refine List.pairwise_cons.mpr ⟨fun v hv => ?_, h.ordered⟩
    obtain ⟨j, steps, hpath⟩ := hbelow v hv
    rw [hpath]
    exact List.nil_lt_cons j steps

/-- A node is visited alone if the visitor turns it down or nothing is below it. -/
theorem Tour.singleton {goesOn : Bool} (hvisit : visit e s = (goesOn, t))
    (hgoesOn : goesOn = true → ∀ i path, e.at? (i :: path) = none) :
    Tour visit e.at? s [⟨[], s, goesOn, t⟩] t where
  answers := by simpa using hvisit
  linked := ⟨rfl, rfl⟩
  reached_iff := by
    intro path
    cases path with
    | nil => simp [open_root]
    | cons i path =>
      refine iff_of_false (by simp) ?_
      rintro ⟨hplace, hopen⟩
      have hnone := hgoesOn (hopen _ List.mem_cons_self (List.nil_prefix) (by simp)) i path
      rw [hnone] at hplace
      cases hplace
  ordered := List.pairwise_singleton ..

theorem exists_tour_walkAll
    (hes : ∀ e ∈ es, ∀ s, ∃ visits, Tour visit e.at? s visits (walk visit s e)) (s : σ) :
    ∃ visits, Tour visit (below? es) s visits (walkAll visit s es) := by
  induction es using List.reverseRecOn with
  | nil => exact ⟨[], .nil (fun path => by cases path <;> rfl) s⟩
  | append_singleton es e ih =>
    obtain ⟨vs, hvs⟩ := ih fun d hd => hes d (List.mem_append_left _ hd)
    obtain ⟨ws, hws⟩ := hes e (by simp) (walkAll visit s es)
    have hwalk : walkAll visit s (es ++ [e]) = walk visit (walkAll visit s es) e := by
      simp [walkAll_eq_foldl]
    rw [hwalk]
    exact ⟨_, hvs.concat hws⟩

theorem exists_tour_walk (visit : Visitor σ) (s : σ) (e : Expr) :
    ∃ visits, Tour visit e.at? s visits (walk visit s e) := by
  induction e using Term.induct generalizing s with
  | onLeaf l => exact ⟨_, .singleton rfl fun _ i path => rfl⟩
  | onOperation op es ih =>
    rw [walk]
    split
    · rename_i t hvisit
      obtain ⟨vs, hvs⟩ := exists_tour_walkAll (fun e he s => ih e he s) t
      exact ⟨_, hvs.cons hvisit⟩
    · rename_i t hvisit
      exact ⟨_, .singleton hvisit (by simp)⟩

/-- The visitor with other answers at leaves. -/
def Visitor.answering (visit : Visitor σ) (answer : Leaf → σ → Bool) : Visitor σ
  | .leaf l, s => (answer l s, (visit (.leaf l) s).2)
  | .operation op es, s => visit (.operation op es) s

/-- A visit with the answer that another visitor gives there. -/
def Visit.reanswered (place : List Nat → Option Expr) (visit : Visitor σ)
    (v : Visit σ) : Visit σ :=
  { v with goesOn := ((place v.path).map fun node => (visit node v.before).1).getD v.goesOn }

theorem reanswered_goesOn (h : place v.path = some e) :
    (v.reanswered place visit).goesOn = (visit e v.before).1 := by
  simp [Visit.reanswered, h]

theorem answering_snd (visit : Visitor σ) (answer : Leaf → σ → Bool) (e : Expr) (s : σ) :
    (visit.answering answer e s).2 = (visit e s).2 := by
  cases e <;> rfl

/-- Other answers at leaves change no visit but for these answers. -/
theorem Tour.answering (h : Tour visit e.at? s visits t) (answer : Leaf → σ → Bool) :
    Tour (visit.answering answer) e.at? s
      (visits.map (Visit.reanswered e.at? (visit.answering answer))) t := by
  have hopen (path : List Nat) (hpath : (e.at? path).isSome) :
      Open (visits.map (Visit.reanswered e.at? (visit.answering answer))) path ↔
        Open visits path := by
    rw [Open, List.forall_mem_map]
    refine forall₂_congr fun v hv => forall₂_congr fun habove hne => ?_
    -- Above a position there are operations alone, where the answers are the same.
    obtain ⟨op, es, hnode⟩ : ∃ op es, e.at? v.path = some (.operation op es) :=
      exists_operation_above hpath habove hne
    obtain ⟨node, hnode', hanswer⟩ := h.answers v hv
    obtain rfl : node = .operation op es := Option.some.inj (hnode'.symm.trans hnode)
    rw [reanswered_goesOn hnode]
    change (visit _ _).1 = true ↔ _
    rw [hanswer]
  have hlinked := (linked_map (f := Visit.reanswered e.at? (visit.answering answer)) (fun _ => rfl)
    fun _ => rfl).mpr h.linked
  refine ⟨?_, hlinked, fun path => ?_, ?_⟩
  · refine List.forall_mem_map.mpr fun v hv => ?_
    obtain ⟨node, hnode, hanswer⟩ := h.answers v hv
    refine ⟨node, hnode, Prod.ext (reanswered_goesOn hnode).symm ?_⟩
    have hafter : (visit node v.before).2 = v.after := congrArg Prod.snd hanswer
    exact (answering_snd visit answer node v.before).trans hafter
  · have hpaths : (visits.map (Visit.reanswered e.at? (visit.answering answer))).map Visit.path =
        visits.map Visit.path := by simp [Visit.reanswered, Function.comp_def]
    rw [hpaths, h.reached_iff]
    exact and_congr_right fun hpath => (hopen path hpath).symm
  · exact List.pairwise_map.mpr h.ordered

/-- A walk shows a visitor each position that has no node above it which the visitor turned down:
once, in lexicographic order, so a node before those below it, and in the state that the last one
left it in. There is exactly one such tour, and it ends where the walk does. Other answers at leaves
lead to the same visits and the same states. -/
theorem walk_tour (visit : Visitor σ) (s : σ) (e : Expr) :
    ∃ visits,
      (∀ others t, Tour visit e.at? s others t ↔ others = visits ∧ t = walk visit s e) ∧
      ∀ answer, ∃ others, Tour (visit.answering answer) e.at? s others (walk visit s e) ∧
        others.map (fun v => (v.path, v.before, v.after)) =
          visits.map fun v => (v.path, v.before, v.after) := by
  obtain ⟨visits, hvisits⟩ := exists_tour_walk visit s e
  refine ⟨visits, fun others t => ⟨fun h => h.unique hvisits, ?_⟩,
    fun answer => ⟨_, hvisits.answering answer, ?_⟩⟩
  · rintro ⟨rfl, rfl⟩
    exact hvisits
  · rw [List.map_map]
    rfl

end Fluxion.Expr
