import Fluxion.Proofs.Graph.Filling

namespace Fluxion.Graph

variable {g h k : Graph} {n m root : Nat} {name : String} {ps : List NodeId}

theorem mem_operands :
    m ∈ g.operands n ↔ ∃ op ns, g.nodes[n]? = some (.operation op ns) ∧ m ∈ ns := by
  unfold operands
  split
  · rename_i op ns hn
    simp [hn]
  · rename_i hn
    simp only [List.not_mem_nil, false_iff, not_exists, not_and]
    intro op ns hop
    exact absurd hop (hn op ns)

theorem Keeps.operands (hk : g.Keeps h) (hn : n < g.size) : h.operands n = g.operands n := by
  obtain ⟨node, hnode⟩ := exists_node hn
  simp [Graph.operands, hnode, hk hnode]

/-- Derivatives that are known stay known, and stay the same nodes. -/
def Recalls (g h : Graph) : Prop :=
  ∀ (m : Nat) (name : String) (d : NodeId), m < g.size → g.derivative? name m = some d →
    h.derivative? name m = some d

theorem Recalls.refl (g : Graph) : g.Recalls g := fun _ _ _ _ hd => hd

theorem Recalls.trans (hgh : g.Recalls h) (hk : g.Keeps h) (hhk : h.Recalls k) : g.Recalls k :=
  fun m name d hm hd => hhk m name d (hk.lt hm) (hgh m name d hm hd)

theorem Filled.derivative?_of_ne (hf : Filled g name n h) (hm : m < g.size) (hne : m ≠ n)
    (other : String) : h.derivative? other m = g.derivative? other m :=
  derivative?_congr hf.keeps hm (by rw [hf.others m hm hne])

theorem Filled.recalls (hf : Filled g name n h) (hn : g.derivative? name n = none) :
    g.Recalls h := by
  intro m other d hm hd
  by_cases hmn : m = n
  · subst m
    have hne : other ≠ name := by
      rintro rfl
      rw [hn] at hd
      cases hd
    rw [← hd]
    refine derivative?_congr hf.keeps hm ?_
    obtain ⟨e, he⟩ := hf.entry
    rw [he, List.lookup_cons, beq_false_of_ne hne]
  · rw [hf.derivative?_of_ne hm hmn, hd]

/-- A list of nodes that can be worked out one after the other: what they
need is known or comes before them. -/
structure Ready (g : Graph) (name : String) (ps : List NodeId) : Prop where
  lt : ∀ n : Nat, n ∈ ps → n < g.size
  unknown : ∀ n ∈ ps, g.derivative? name n = none
  sorted : ps.Pairwise fun m n : Nat => m < n
  closed : ∀ n ∈ ps, ∀ m ∈ g.operands n, (g.derivative? name m).isSome ∨ m ∈ ps

/-- The nodes found among those from `first` up, when the search has come down to `first`. -/
private structure Found (g : Graph) (name : String) (root first : Nat)
    (found : List NodeId) : Prop where
  ge : ∀ n : Nat, n ∈ found → first ≤ n
  le : ∀ n : Nat, n ∈ found → n ≤ root
  unknown : ∀ n ∈ found, g.derivative? name n = none
  sorted : found.Pairwise fun m n : Nat => m < n
  closed : ∀ n ∈ found, ∀ m : Nat, m ∈ g.operands n → first ≤ m →
    (g.derivative? name m).isSome ∨ m ∈ found
  root : first ≤ root → g.derivative? name root = none → root ∈ found

private theorem found_foldr (hg : g.WellFormed) (name : String) (root count first : Nat)
    (hc : first + count = root + 1) :
    Found g name root first ((List.range' first count).foldr (fun n found =>
      if (g.derivative? name n).isNone &&
          (n == root || found.any fun m => (g.operands m).contains n) then
        n :: found
      else found) []) := by
  induction count generalizing first with
  | zero =>
    refine ⟨by simp, by simp, by simp, .nil, by simp, fun hle => ?_⟩
    omega
  | succ count ih =>
    have hrest := ih (first + 1) (by omega)
    rw [List.range'_succ, List.foldr_cons]
    generalize (List.range' (first + 1) count).foldr _ [] = found at hrest ⊢
    -- An operand of a node that was found is older, so the search has yet to come down to it.
    have hlt : ∀ n : Nat, n ∈ found → first < n := fun n hn => hrest.ge n hn
    have hclosed : ∀ n ∈ found, ∀ m : Nat, m ∈ g.operands n → first ≤ m →
        m = first ∨ (g.derivative? name m).isSome ∨ m ∈ found := by
      intro n hn m hm hle
      rcases Nat.eq_or_lt_of_le hle with heq | hgt
      · exact .inl heq.symm
      · exact .inr (hrest.closed n hn m hm hgt)
    split
    · rename_i hcond
      simp only [Bool.and_eq_true, Option.isNone_iff_eq_none] at hcond
      refine ⟨?_, ?_, ?_, List.pairwise_cons.mpr ⟨hlt, hrest.sorted⟩, ?_, ?_⟩
      · intro n hn
        rcases List.mem_cons.mp hn with rfl | hn
        · exact Nat.le_refl _
        · exact Nat.le_of_lt (hlt n hn)
      · intro n hn
        rcases List.mem_cons.mp hn with rfl | hn
        · omega
        · exact hrest.le n hn
      · intro n hn
        rcases List.mem_cons.mp hn with rfl | hn
        · exact hcond.1
        · exact hrest.unknown n hn
      · intro n hn m hm hle
        rcases List.mem_cons.mp hn with rfl | hn
        · obtain ⟨op, ns, hnode, hm⟩ := mem_operands.mp hm
          exact absurd (hg.operand_lt hnode hm) (Nat.not_lt.mpr hle)
        · rcases hclosed n hn m hm hle with rfl | hd | hm
          · exact .inr List.mem_cons_self
          · exact .inl hd
          · exact .inr (List.mem_cons_of_mem _ hm)
      · intro hle hd
        rcases Nat.eq_or_lt_of_le hle with rfl | hgt
        · exact List.mem_cons_self
        · exact List.mem_cons_of_mem _ (hrest.root hgt hd)
    · rename_i hcond
      simp only [Bool.and_eq_true, Option.isNone_iff_eq_none, Bool.or_eq_true, beq_iff_eq,
        List.any_eq_true, List.contains_iff_mem, not_and, not_or] at hcond
      refine ⟨fun n hn => Nat.le_of_lt (hlt n hn), hrest.le, hrest.unknown,
        hrest.sorted, ?_, ?_⟩
      · intro n hn m hm hle
        rcases hclosed n hn m hm hle with rfl | hd
        · cases hd : g.derivative? name m with
          | none => exact absurd ⟨n, hn, hm⟩ (hcond hd).2
          | some d => exact .inl rfl
        · exact hd
      · intro hle hd
        rcases Nat.eq_or_lt_of_le hle with rfl | hgt
        · exact absurd rfl (hcond hd).1
        · exact hrest.root hgt hd

private theorem pending_found (hg : g.WellFormed) (name : String) (root : Nat) :
    Found g name root 0 (g.pending name root) := by
  have h := found_foldr hg name root (root + 1) 0 (by omega)
  rwa [← List.range_eq_range'] at h

theorem pending_ready (hg : g.WellFormed) (hn : n < g.size) : Ready g name (g.pending name n) :=
  have h := pending_found hg name n
  ⟨fun m hm => Nat.lt_of_le_of_lt (h.le m hm) hn, h.unknown, h.sorted,
    fun m hm k hk => h.closed m hm k hk (Nat.zero_le k)⟩

theorem mem_pending (hg : g.WellFormed) (hd : g.derivative? name n = none) :
    n ∈ g.pending name n :=
  (pending_found hg name n).root (Nat.zero_le n) hd

/-- Nothing is pending below a derivative that is known. -/
theorem pending_eq_nil (hd : (g.derivative? name root).isSome) : g.pending name root = [] := by
  unfold pending
  generalize List.range (root + 1) = candidates
  induction candidates with
  | nil => rfl
  | cons n candidates ih =>
    rw [List.foldr_cons, ih]
    refine if_neg ?_
    simp only [List.any_nil, Bool.or_false, Bool.and_eq_true, Option.isNone_iff_eq_none,
      beq_iff_eq, not_and]
    rintro hnone rfl
    rw [hnone] at hd
    cases hd

/-- What it means that derivatives were worked out: all else is as it was. -/
structure Advances (g h : Graph) : Prop where
  truthful : h.Truthful
  keeps : g.Keeps h
  recalls : g.Recalls h

theorem Advances.refl (hg : g.Truthful) : g.Advances g := ⟨hg, .refl g, .refl g⟩

theorem Advances.trans (hgh : g.Advances h) (hhk : h.Advances k) : g.Advances k :=
  ⟨hhk.truthful, hgh.keeps.trans hhk.keeps, hgh.recalls.trans hgh.keeps hhk.recalls⟩

theorem Advances.expr (hgh : g.Advances h) (hg : g.Truthful) (hn : n < g.size) :
    h.expr n = g.expr n :=
  hgh.keeps.expr hg.toWellFormed hgh.truthful.toWellFormed hn

/-- The operands of the first are done: none of them can be among the others, which are not
older. -/
theorem Ready.operands_known {ps : List NodeId} (hr : Ready g name (n :: ps)) (hg : g.WellFormed) :
    ∀ m ∈ g.operands n, (g.derivative? name m).isSome := by
  intro m hm
  rcases hr.closed n List.mem_cons_self m hm with hd | hmem
  · exact hd
  · obtain ⟨op, ns, hnode, hm⟩ := mem_operands.mp hm
    have hlt := hg.operand_lt hnode hm
    rcases List.mem_cons.mp hmem with rfl | hmem
    · exact absurd hlt (Nat.lt_irrefl _)
    · exact absurd hlt (Nat.lt_asymm ((List.pairwise_cons.mp hr.sorted).1 m hmem))

/-- The first of the nodes can be worked out, and then the others are ready. -/
theorem Ready.fill {ps : List NodeId} (hr : Ready g name (n :: ps)) (hg : g.Truthful) :
    g.Advances (g.fill name n) ∧ ((g.fill name n).derivative? name n).isSome ∧
      Ready (g.fill name n) name ps := by
  have hn := hr.lt n List.mem_cons_self
  have hnone := hr.unknown n List.mem_cons_self
  have hgt := (List.pairwise_cons.mp hr.sorted).1
  obtain ⟨node, hnode⟩ := exists_node hn
  cases node with
  | leaf l =>
    rw [derivative?_leaf hnode] at hnone
    cases hnone
  | operation op ns =>
    have hops : ∀ m ∈ ns, (g.derivative? name m).isSome := fun m hm =>
      hr.operands_known hg.toWellFormed m (mem_operands.mpr ⟨op, ns, hnode, hm⟩)
    have hf := fill_filled hg hnode hops
    have hrecalls := hf.recalls hnone
    refine ⟨⟨hf.truthful, hf.keeps, hrecalls⟩, hf.known hnode, ?_⟩
    refine ⟨fun m hm => hf.keeps.lt (hr.lt m (List.mem_cons_of_mem _ hm)), ?_,
      (List.pairwise_cons.mp hr.sorted).2, ?_⟩
    · intro m hm
      have hlt := hr.lt m (List.mem_cons_of_mem _ hm)
      rw [hf.derivative?_of_ne hlt (Nat.ne_of_gt (hgt m hm))]
      exact hr.unknown m (List.mem_cons_of_mem _ hm)
    · intro m hm k hk
      have hlt := hr.lt m (List.mem_cons_of_mem _ hm)
      rw [hf.keeps.operands hlt] at hk
      rcases hr.closed m (List.mem_cons_of_mem _ hm) k hk with hd | hk'
      · obtain ⟨d, hd⟩ := Option.isSome_iff_exists.mp hd
        obtain ⟨op, ms, hnode', hk⟩ := mem_operands.mp hk
        have hklt := hg.operand_lt_size hnode' hk
        exact .inl (Option.isSome_iff_exists.mpr ⟨d, hrecalls k name d hklt hd⟩)
      · rcases List.mem_cons.mp hk' with rfl | hk'
        · exact .inl (hf.known hnode)
        · exact .inr hk'

theorem Ready.foldl_fill {ps : List NodeId} (hr : Ready g name ps) (hg : g.Truthful) :
    g.Advances (ps.foldl (Graph.fill name) g) ∧
      ∀ n ∈ ps, ((ps.foldl (Graph.fill name) g).derivative? name n).isSome := by
  induction ps generalizing g with
  | nil => exact ⟨.refl hg, by simp⟩
  | cons n ps ih =>
    obtain ⟨hfirst, hknown, hrest⟩ := hr.fill hg
    obtain ⟨hps, hall⟩ := ih hrest hfirst.truthful
    refine ⟨hfirst.trans hps, fun m hm => ?_⟩
    rcases List.mem_cons.mp hm with rfl | hm
    · obtain ⟨d, hd⟩ := Option.isSome_iff_exists.mp hknown
      have hlt := hfirst.keeps.lt (hr.lt m List.mem_cons_self)
      exact Option.isSome_iff_exists.mpr ⟨d, hps.recalls m name d hlt hd⟩
    · exact hall m hm

/-- The answer is the derivative that is known afterwards. -/
structure Answers (g : Graph) (name : String) (n : Nat) (r : Graph × NodeId) : Prop where
  advances : g.Advances r.1
  known : r.1.derivative? name n = some r.2

theorem derivative_answers (hg : g.Truthful) (hn : n < g.size) (name : String) :
    Answers g name n (g.derivative name n) := by
  have hr : Ready g name (g.pending name n) := pending_ready hg.toWellFormed hn
  obtain ⟨hadv, hall⟩ := hr.foldl_fill hg
  have hknown : ((g.pending name n).foldl (fill name) g |>.derivative? name n).isSome := by
    cases hd : g.derivative? name n with
    | none => exact hall n (mem_pending hg.toWellFormed hd)
    | some d => exact Option.isSome_iff_exists.mpr ⟨d, hadv.recalls n name d hn hd⟩
  obtain ⟨d, hd⟩ := Option.isSome_iff_exists.mp hknown
  exact ⟨hadv, hd.trans (congrArg some (derivativeOf_eq hd).symm)⟩

/-- A derivative that is known is answered at once. -/
theorem derivative_of_known {d : NodeId} (hd : g.derivative? name n = some d) :
    g.derivative name n = (g, d) := by
  rw [derivative, pending_eq_nil (Option.isSome_of_eq_some hd), List.foldl_nil, derivativeOf_eq hd]

theorem Answers.lt {r : Graph × NodeId} (ha : Answers g name n r) (hn : n < g.size) :
    r.2 < r.1.size :=
  (ha.advances.truthful.known (ha.advances.keeps.lt hn) ha.known).1

theorem Answers.expr {r : Graph × NodeId} (ha : Answers g name n r) (hg : g.Truthful)
    (hn : n < g.size) : r.1.expr r.2 = (g.expr n).derivative name := by
  rw [(ha.advances.truthful.known (ha.advances.keeps.lt hn) ha.known).2, ha.advances.expr hg hn]

end Fluxion.Graph
