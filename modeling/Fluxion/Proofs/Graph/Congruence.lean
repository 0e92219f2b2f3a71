import Fluxion.Proofs.Graph.Equality
import Fluxion.Proofs.Graph.Formed
import Fluxion.Proofs.Graph.Shape

namespace Fluxion

/-- No two operators are called by one sign. -/
theorem Operator.Known.eq_of_sign {o p : Operator} (ho : o.Known) (hp : p.Known)
    (hs : o.sign = p.sign) : o = p := by
  have hall : ∀ o ∈ vocabulary ++ [any .sumsq, any .distance],
      ∀ p ∈ vocabulary ++ [any .sumsq, any .distance], o.sign = p.sign → o = p := by
    decide +kernel
  have hmem {o : Operator} (ho : o.Known) : o ∈ vocabulary ++ [any .sumsq, any .distance] := by
    simpa [Known] using ho
  exact hall o (hmem ho) p (hmem hp) hs

namespace Graph

variable {g : Graph} {m n : Nat} {name : String} {p : Primitive} {d e : NodeId}
  {ms ns : List NodeId} {qs : List (NodeId × NodeId)}

private theorem alike_of_representsAll {ts : List (Term (NodeId × NodeId))}
    (hts : ∀ t ∈ ts, ∀ {m n}, g.Represents Eq (t.map Prod.fst) m →
      g.Represents Eq (t.map Prod.snd) n →
      g.Alike m n)
    (hms : List.Forall₂ (g.Represents Eq) (ts.map (Term.map Prod.fst)) ms)
    (hns : List.Forall₂ (g.Represents Eq) (ts.map (Term.map Prod.snd)) ns) :
    List.Forall₂ g.Alike ms ns := by
  induction ts generalizing ms ns with
  | nil =>
    cases hms
    cases hns
    exact .nil
  | cons t ts ih =>
    cases hms with
    | cons hm hms =>
      cases hns with
      | cons hn hns =>
        exact .cons (hts t List.mem_cons_self hm hn)
          (ih (fun u hu => hts u (List.mem_cons_of_mem _ hu)) hms hns)

/-- The same operations over alike nodes are alike. -/
theorem Represents.alike {t : Term (NodeId × NodeId)} (hm : g.Represents Eq (t.map Prod.fst) m)
    (hn : g.Represents Eq (t.map Prod.snd) n) (ht : ∀ q ∈ t.leaves, g.Alike q.1 q.2) :
    g.Alike m n := by
  induction t using Term.induct generalizing m n with
  | onLeaf q =>
    cases hm with
    | leaf hm =>
      cases hn with
      | leaf hn =>
        subst hm hn
        exact ht q (by simp)
  | onOperation op ts ih =>
    rw [Term.map_operation] at hm hn
    cases hm with
    | operation hm hms =>
      cases hn with
      | operation hn hns =>
        refine .operation hm hn rfl (alike_of_representsAll (fun t hmem m n hm hn => ?_) hms hns)
        exact ih t hmem hm hn fun q hq => ht q (Term.mem_leaves_operand hmem hq)

/-- Two lists as one of pairs. -/
private theorem exists_pairs {R : NodeId → NodeId → Prop} (h : List.Forall₂ R ms ns) :
    ∃ qs : List (NodeId × NodeId), qs.map Prod.fst = ms ∧ qs.map Prod.snd = ns ∧
      ∀ q ∈ qs, R q.1 q.2 :=
  ⟨ms.zip ns, List.map_fst_zip (Nat.le_of_eq h.length_eq),
    List.map_snd_zip (Nat.le_of_eq h.length_eq.symm), fun _ hq => List.forall₂_zip h hq⟩

/-- A shared constant is paired with itself. -/
private def both (c : Shared) : NodeId × NodeId := (c.id, c.id)

theorem Summed.alike (hd : g.Summed name p (qs.map Prod.fst) d)
    (he : g.Summed name p (qs.map Prod.snd) e) (hqs : ∀ q ∈ qs, g.Alike q.1 q.2)
    (hds : ∀ q ∈ qs, g.Alike (g.derivativeOf name q.1) (g.derivativeOf name q.2)) :
    g.Alike d e := by
  obtain ⟨as, has, hd⟩ := hd
  obtain ⟨bs, hbs, he⟩ := he
  have hpartials : List.Forall₂ g.Alike as bs := by
    have hfst := Primitive.partials_map Prod.fst both p qs
    have hsnd := Primitive.partials_map Prod.snd both p qs
    refine alike_of_representsAll (fun t ht m n hm hn => hm.alike hn fun q hq => ?_) (hfst ▸ has)
      (hsnd ▸ hbs)
    rcases Primitive.mem_leaves_partials ht hq with hq | ⟨c, rfl⟩
    · exact hqs q hq
    · exact .same c.id
  obtain ⟨ps, rfl, rfl, hps⟩ := exists_pairs hpartials
  let ds := qs.map fun q => (g.derivativeOf name q.1, g.derivativeOf name q.2)
  have hfst : (qs.map Prod.fst).map (g.derivativeOf name) = ds.map Prod.fst := by simp [ds]
  have hsnd : (qs.map Prod.snd).map (g.derivativeOf name) = ds.map Prod.snd := by simp [ds]
  rw [hfst] at hd
  rw [hsnd] at he
  have hd' := chainRule_map Prod.fst both ps ds ▸ hd
  have he' := chainRule_map Prod.snd both ps ds ▸ he
  refine hd'.alike he' fun q hq => ?_
  rcases mem_leaves_chainRule hq with hq | hq | ⟨c, rfl⟩
  · exact hps q hq
  · obtain ⟨r, hr, rfl⟩ := List.mem_map.mp hq
    exact hds r hr
  · exact .same c.id

theorem Derivation.alike (hd : g.Derivation name p (qs.map Prod.fst) d)
    (he : g.Derivation name p (qs.map Prod.snd) e) (hqs : ∀ q ∈ qs, g.Alike q.1 q.2)
    (hds : ∀ q ∈ qs, g.Alike (g.derivativeOf name q.1) (g.derivativeOf name q.2)) :
    g.Alike d e := by
  -- Which rule applies, and what it divides by, depends on the pairs only.
  have hfst := Primitive.quotient?_map Prod.fst both p qs
  have hsnd := Primitive.quotient?_map Prod.snd both p qs
  have hnil : qs.map Prod.fst = [] ↔ qs.map Prod.snd = [] := by simp
  cases hd with
  | zero hd =>
    cases he with
    | zero he => exact .same _
    | chain he => exact absurd (hnil.mp hd) he
    | quotient he => exact absurd (hnil.mp hd) he
  | chain hne hq hsum =>
    have hnone : p.quotient? both qs = none := by simpa using hfst.symm.trans hq
    rw [hnone] at hsnd
    cases he with
    | zero he => exact absurd (hnil.mpr he) hne
    | chain _ _ hsum' => exact hsum.alike hsum' hqs hds
    | quotient _ hq' => cases hsnd.symm.trans hq'
  | quotient hne hq hsum hdivide =>
    obtain ⟨⟨inner, divisor⟩, hsome, heq⟩ := Option.map_eq_some_iff.mp (hfst.symm.trans hq)
    obtain ⟨rfl, rfl⟩ := Prod.mk.inj heq
    rw [hsome] at hsnd
    cases he with
    | zero he => exact absurd (hnil.mpr he) hne
    | chain _ hq' => cases hsnd.symm.trans hq'
    | quotient _ hq' hsum' hdivide' =>
      obtain ⟨rfl, rfl⟩ := Prod.mk.inj (Option.some.inj (hsnd.symm.trans hq'))
      have hinner := hsum.alike hsum' hqs hds
      refine hdivide.alike (t := .divide (.leaf (_, _)) divisor) hdivide' fun r hr => ?_
      rcases Term.mem_leaves_divide.mp hr with hr | hr
      · obtain rfl := List.mem_singleton.mp hr
        exact hinner
      · rcases Primitive.mem_leaves_quotient hsome hr with hr | ⟨c, rfl⟩
        · exact hqs r hr
        · exact .same c.id

/-- Alike nodes have alike derivatives. The rules put the operands themselves into a derivative and
never copies of them, so that even a NaN is met again as the same node. -/
theorem Alike.derivative (hmn : g.Alike m n) (hg : g.WellFormed) (hf : g.Formed) (hr : g.Recorded)
    (hd : g.derivative? name m = some d) (he : g.derivative? name n = some e) : g.Alike d e := by
  revert d e
  refine hmn.induct hg (motive := fun m n => ∀ {d e}, g.derivative? name m = some d →
    g.derivative? name n = some e → g.Alike d e) ?_ ?_ ?_
  · intro m d e hd he
    obtain rfl := Option.some.inj (hd.symm.trans he)
    exact .same d
  · intro m n a b hm hn hab d e hd he
    rw [derivative?_leaf hm, Option.some.injEq] at hd
    rw [derivative?_leaf hn, Option.some.injEq] at he
    subst hd he
    rw [Leaf.derivative_eq_of_equal name hab]
    exact .same _
  · intro m n o p ms ns hm hn hs hall ih d e hd he
    obtain rfl := (hf hm).known.eq_of_sign (hf hn).known hs
    have hknown : List.Forall₂
        (fun a b => g.Alike a b ∧ g.Alike (g.derivativeOf name a) (g.derivativeOf name b))
        ms ns := by
      refine List.forall₂_iff_zip.mpr
        ⟨hall.length_eq, fun hz => ⟨List.forall₂_zip hall hz, ?_⟩⟩
      obtain ⟨ha, hb⟩ := List.of_mem_zip hz
      obtain ⟨a', ha'⟩ := hr.known hm hd ha
      obtain ⟨b', hb'⟩ := hr.known hn he hb
      rw [derivativeOf_eq ha', derivativeOf_eq hb']
      exact List.forall₂_zip ih hz ha' hb'
    obtain ⟨qs, rfl, rfl, hqs⟩ := exists_pairs hknown
    exact (hr.derivation hm hd).alike (hr.derivation hn he) (fun q hq => (hqs q hq).1) fun q hq =>
      (hqs q hq).2

end Graph
end Fluxion
