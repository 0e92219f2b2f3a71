import Mathlib.Logic.Function.Basic
import Fluxion.Proofs.Graph.Footprint

namespace Fluxion.Graph

variable {g h i : Graph} {n m first : Nat} {name : String} {op : Operator} {ns ps : List NodeId}
  {k l : Task} {ks : List Task} {b : Nat → Block} {d : NodeId} {start : Task → Nat}

/-- The task was performed since. -/
structure Done (g h : Graph) (k : Task) : Prop where
  owner : k.owner < g.size
  before : g.answer? k = none
  after : (h.answer? k).isSome

/-- The block of a task where it was started. -/
def made (h : Graph) (start : Task → Nat) (k : Task) : Block := h.block (start k) k

/-- Every new node is in the block of just one task, and every answer is that of the block. -/
structure Account (g h : Graph) (start : Task → Nat) : Prop where
  retains : g.Retains h
  answered : ∀ {k : Task}, Done g h k → h.answer? k = some (h.made start k).answer
  placed : ∀ {k : Task} {i : Nat}, Done g h k → i < (h.made start k).nodes.length →
    g.size ≤ start k + i ∧ h.nodes[start k + i]? = (h.made start k).nodes[i]? ∧
      h.memo (start k + i) = if i = 0 then (h.made start k).memo else .empty
  apart : ∀ {k l : Task} {i j : Nat}, Done g h k → Done g h l →
    i < (h.made start k).nodes.length →
    j < (h.made start l).nodes.length → start k + i = start l + j → k = l
  covered : ∀ {n : Nat}, g.size ≤ n → n < h.size →
    ∃ k i, Done g h k ∧ i < (h.made start k).nodes.length ∧ n = start k + i

theorem not_done_self (g : Graph) (k : Task) : ¬ Done g g k := by
  intro hk
  have hsome := hk.after
  rw [hk.before] at hsome
  cases hsome

theorem Account.refl (g : Graph) (start : Task → Nat) : Account g g start where
  retains := .refl g
  answered hk := absurd hk (not_done_self g _)
  placed hk := absurd hk (not_done_self g _)
  apart hk := absurd hk (not_done_self g _)
  covered hle hlt := absurd hlt (Nat.not_lt.mpr hle)

theorem Supplies.block_eq (hk : g.Supplies k) (hg : g.WellFormed) (hgh : g.Retains h)
    (first : Nat) : h.block first k = g.block first k := by
  obtain ⟨b, hb⟩ := hk
  rw [hb.block_eq, (hb.retains hg hgh).block_eq]

theorem Adds.done_iff (ha : h.Adds k i) (hgh : g.Retains h) (hlt : k.owner < g.size)
    (hnone : h.answer? k = none) : Done g i l ↔ Done g h l ∨ l = k := by
  constructor
  · intro hl
    by_cases hlk : l = k
    · exact .inr hlk
    · have hafter := hl.after
      rw [ha.answers l (hgh.keeps.lt hl.owner), if_neg hlk] at hafter
      exact .inl ⟨hl.owner, hl.before, hafter⟩
  · rintro (hl | rfl)
    · refine ⟨hl.owner, hl.before, ?_⟩
      rw [ha.answers l (hgh.keeps.lt hl.owner)]
      split
      · rfl
      · exact hl.after
    · refine ⟨hlt, ?_, ?_⟩
      · cases hbefore : g.answer? l with
        | none => rfl
        | some answer =>
          rw [hgh.answers hbefore] at hnone
          cases hnone
      · rw [ha.answers l (hgh.keeps.lt hlt), if_pos rfl]
        rfl

/-- A block ends where the graph ends, or before. -/
theorem Account.lt_size (hacc : Account g h start) {j : Nat} (hl : Done g h l)
    (hj : j < (h.made start l).nodes.length) : start l + j < h.size := by
  obtain ⟨-, hnode, -⟩ := hacc.placed hl hj
  rw [List.getElem?_eq_getElem hj] at hnode
  exact Graph.lt_size hnode

/-- The place of one more task is where the graph ended. -/
theorem made_update_self (hw : h.WellFormed) (hhi : h.Retains i) (hk : h.Supplies k)
    (start : Task → Nat) : i.made (Function.update start k h.size) k = h.block h.size k := by
  rw [made, Function.update_self, hk.block_eq hw hhi]

/-- The other tasks have made what they made. -/
theorem made_update_of_done (hw : h.WellFormed) (hs : h.Settled) (hhi : h.Retains i)
    (hnone : h.answer? k = none) (start : Task → Nat) (hl : Done g h l) :
    Function.update start k h.size l = start l ∧
      i.made (Function.update start k h.size) l = h.made start l := by
  have hne : l ≠ k := by
    rintro rfl
    have hafter := hl.after
    rw [hnone] at hafter
    cases hafter
  have hsame : Function.update start k h.size l = start l := Function.update_of_ne hne ..
  exact ⟨hsame, by rw [made, made, hsame, (hs l hl.after).block_eq hw hhi]⟩

theorem Account.adds (hacc : Account g h start) (hw : h.WellFormed) (hs : h.Settled)
    (hlt : k.owner < g.size) (hnone : h.answer? k = none) (hk : h.Supplies k) (ha : h.Adds k i) :
    Account g i (Function.update start k h.size) := by
  have hgh := hacc.retains
  have hhi := ha.retains hw hnone
  have hle := hgh.keeps.size_le
  have hsize := ha.size
  have hdone {l : Task} := ha.done_iff (l := l) hgh hlt hnone
  have hself : Function.update start k h.size k = h.size := Function.update_self ..
  have hnew := made_update_self hw hhi hk start
  have hold {l : Task} (hl : Done g h l) := made_update_of_done hw hs hhi hnone start hl
  generalize Function.update start k h.size = start' at hself hnew hold ⊢
  refine ⟨hgh.trans hhi, fun {l} hl => ?_, fun {l j} hl hj => ?_,
    fun {l m j j'} hl hm hj hj' heq => ?_, fun {n} hn hlt' => ?_⟩
  · rcases hdone.mp hl with hl | rfl
    · rw [(hold hl).2]
      exact hhi.answers (hacc.answered hl)
    · rw [hnew, ha.answers _ (hgh.keeps.lt hlt), if_pos rfl]
  · rcases hdone.mp hl with hl | rfl
    · rw [(hold hl).2] at hj ⊢
      rw [(hold hl).1]
      obtain ⟨hge, hnode, hmemo⟩ := hacc.placed hl hj
      refine ⟨hge, ?_, ?_⟩
      · rw [List.getElem?_eq_getElem hj] at hnode ⊢
        exact ha.keeps hnode
      · rw [← hmemo]
        exact ha.memos _ (hacc.lt_size hl hj) (Nat.ne_of_gt (Nat.lt_of_lt_of_le hlt hge))
    · rw [hnew] at hj ⊢
      rw [hself]
      refine ⟨by omega, ?_, ha.made j⟩
      rw [ha.nodes, Graph.size, Array.getElem?_append_right (Nat.le_add_right _ _),
        Nat.add_sub_cancel_left, List.getElem?_toArray]
  · rcases hdone.mp hl with hl | rfl <;> rcases hdone.mp hm with hm | rfl
    · rw [(hold hl).2] at hj
      rw [(hold hm).2] at hj'
      rw [(hold hl).1, (hold hm).1] at heq
      exact hacc.apart hl hm hj hj' heq
    · rw [(hold hl).2] at hj
      have hlast := hacc.lt_size hl hj
      rw [(hold hl).1, hself] at heq
      omega
    · rw [(hold hm).2] at hj'
      have hlast := hacc.lt_size hm hj'
      rw [(hold hm).1, hself] at heq
      omega
    · rfl
  · rcases Nat.lt_or_ge n h.size with hbefore | hge
    · obtain ⟨l, j, hl, hj, rfl⟩ := hacc.covered hn hbefore
      refine ⟨l, j, hdone.mpr (.inl hl), ?_, ?_⟩
      · rwa [(hold hl).2]
      · rw [(hold hl).1]
    · refine ⟨k, n - h.size, hdone.mpr (.inr rfl), ?_, ?_⟩
      · rw [hnew]
        omega
      · rw [hself]
        omega

theorem Account.performs (hacc : Account g h start) (hp : Performs h ks i) (hw : h.WellFormed)
    (hs : h.Settled) (hlt : ∀ k ∈ ks, k.owner < g.size) : ∃ start', Account g i start' := by
  induction hp generalizing start with
  | nil => exact ⟨start, hacc⟩
  | cons hnone hk ha hh _ ih =>
    have hfirst := hacc.adds hw hs (hlt _ List.mem_cons_self) hnone hk ha
    exact ih hfirst hh (hs.adds hw hk hnone ha) fun l hl => hlt l (List.mem_cons_of_mem _ hl)

theorem Serves.account {requests : List (NodeId × String)} (hr : Serves g requests h)
    (hg : g.WellFormed) (hs : g.Settled) : ∃ start, Account g h start := by
  obtain ⟨ks, hks, hneeds⟩ := hr.tasks hg
  refine (Account.refl g fun _ => 0).performs hks hg hs fun k hk => ?_
  obtain ⟨-, howner, -⟩ := hneeds k hk
  exact howner

/-- The same requests take the same tasks, whatever their order. -/
theorem Serves.done_iff {qs rs : List (NodeId × String)} (hqs : Serves g qs h)
    (hrs : Serves g rs i) (hg : g.WellFormed) (hs : g.Settled) (hmem : ∀ q, q ∈ qs ↔ q ∈ rs)
    (k : Task) : Done g h k ↔ Done g i k := by
  have hsame (hk : k.owner < g.size) : (h.answer? k).isSome ↔ (i.answer? k).isSome := by
    rw [hqs.isSome_iff hg hs hk, hrs.isSome_iff hg hs hk]
    simp only [hmem]
  constructor
  · intro hk
    exact ⟨hk.owner, hk.before, (hsame hk.owner).mp hk.after⟩
  · intro hk
    exact ⟨hk.owner, hk.before, (hsame hk.owner).mpr hk.after⟩

end Fluxion.Graph
