import Mathlib.Data.Finset.Card
import Mathlib.Data.Finset.Range
import Fluxion.Graph.Numbering
import Fluxion.Proofs.Graph.Renaming

namespace Fluxion.Graph

variable {g h₁ h₂ : Graph} {f : NodeId → NodeId} {n : Nat} {met : Array NodeId}

def Within (g : Graph) (met : Array NodeId) : Prop := ∀ n : Nat, n ∈ met → n < g.size

theorem Renaming.size_eq (hr : Renaming g h₁ h₂ f) : h₂.size = h₁.size := by
  have hb := hr.bijective
  rw [← Finset.coe_range, ← Finset.coe_range] at hb
  have hle := Finset.card_le_card_of_injOn f hb.mapsTo hb.injOn
  have hge := Finset.card_le_card_of_surjOn f hb.surjOn
  rw [Finset.card_range, Finset.card_range] at hle hge
  exact Nat.le_antisymm hge hle

theorem Renaming.operands (hr : Renaming g h₁ h₂ f) (hn : n < h₁.size) :
    h₂.operands (f n) = (h₁.operands n).map f := by
  obtain ⟨node, hnode⟩ := exists_node hn
  have hnode' := hr.nodes n hn
  rw [hnode] at hnode'
  cases node <;> simp_all [Graph.operands, Node.map]

theorem Renaming.eq_iff (hr : Renaming g h₁ h₂ f) {m : Nat} (hm : m < h₁.size)
    (hn : n < h₁.size) : f m = f n ↔ m = n :=
  ⟨fun h => hr.bijective.injOn hm hn h, congrArg f⟩

theorem Renaming.contains_map (hr : Renaming g h₁ h₂ f) (hmet : h₁.Within met)
    (hn : n < h₁.size) : (met.map f).contains (f n) = met.contains n := by
  rw [Bool.eq_iff_iff, Array.contains_iff_mem, Array.contains_iff_mem, Array.mem_map]
  constructor
  · rintro ⟨m, hm, heq⟩
    rwa [← (hr.eq_iff (hmet m hm) hn).mp heq]
  · exact fun hn => ⟨n, hn, rfl⟩

theorem Renaming.idxOf?_map (hr : Renaming g h₁ h₂ f) (hmet : h₁.Within met)
    (hn : n < h₁.size) : (met.map f).idxOf? (f n) = met.idxOf? n := by
  obtain ⟨ms⟩ := met
  have hms : ∀ m : Nat, m ∈ ms → m < h₁.size := fun m hm => hmet m (List.mem_toArray.mpr hm)
  rw [List.map_toArray, List.idxOf?_toArray, List.idxOf?_toArray]
  clear hmet
  induction ms with
  | nil => rfl
  | cons m ms ih =>
    obtain ⟨hm, hms⟩ := List.forall_mem_cons.mp hms
    simp only [List.map_cons, List.idxOf?_cons, beq_iff_eq, hr.eq_iff hm hn, ih hms]

theorem foldl_map_of_step {start : Array NodeId} {ms : List NodeId}
    {step₁ step₂ : Array NodeId → NodeId → Array NodeId}
    (hstep : ∀ (met : Array NodeId) (n : Nat), h₁.Within met → n < h₁.size →
      h₁.Within (step₁ met n) ∧ step₂ (met.map f) (f n) = (step₁ met n).map f)
    (hstart : h₁.Within start) (hms : ∀ m : Nat, m ∈ ms → m < h₁.size) :
    h₁.Within (ms.foldl step₁ start) ∧
      (ms.map f).foldl step₂ (start.map f) = (ms.foldl step₁ start).map f := by
  induction ms generalizing start with
  | nil => exact ⟨hstart, rfl⟩
  | cons m ms ih =>
    obtain ⟨hm, hms⟩ := List.forall_mem_cons.mp hms
    obtain ⟨hfirst, heq⟩ := hstep start m hstart hm
    rw [List.map_cons, List.foldl_cons, List.foldl_cons, heq]
    exact ih hfirst hms

theorem Renaming.meet_map (hr : Renaming g h₁ h₂ f) (hw : h₁.WellFormed) (depth : Nat)
    (met : Array NodeId) (n : Nat) (hmet : h₁.Within met) (hn : n < h₁.size) :
    h₁.Within (h₁.meet depth met n) ∧
      h₂.meet depth (met.map f) (f n) = (h₁.meet depth met n).map f := by
  induction depth generalizing met n with
  | zero => exact ⟨hmet, rfl⟩
  | succ depth ih =>
    rw [meet, meet, hr.contains_map hmet hn]
    split
    · exact ⟨hmet, rfl⟩
    · rw [hr.operands hn, ← Array.map_push]
      refine foldl_map_of_step ih (fun m hm => ?_) fun m hm => Nat.lt_trans (hw.uses_lt hm) hn
      rcases Array.mem_push.mp hm with hm | rfl
      · exact hmet m hm
      · exact hn

theorem Renaming.numbering_map (hr : Renaming g h₁ h₂ f) (hw : h₁.WellFormed)
    {roots : List NodeId} (hroots : ∀ n : Nat, n ∈ roots → n < h₁.size) :
    h₁.Within (h₁.numbering roots) ∧
      h₂.numbering (roots.map f) = (h₁.numbering roots).map f := by
  rw [numbering, numbering, hr.size_eq]
  have hmet := foldl_map_of_step (hr.meet_map hw h₁.size)
    (fun n hn => absurd hn (Array.not_mem_empty n)) hroots
  rwa [Array.map_empty] at hmet

theorem Renaming.picture_map (hr : Renaming g h₁ h₂ f) (hw : h₁.WellFormed)
    {roots : List NodeId} (hroots : ∀ n : Nat, n ∈ roots → n < h₁.size) :
    h₂.picture (roots.map f) = h₁.picture roots := by
  obtain ⟨hmet, heq⟩ := hr.numbering_map hw hroots
  simp only [picture, heq]
  generalize h₁.numbering roots = met at hmet
  have hnumber {n : Nat} (hn : n < h₁.size) :
      ((met.map f).idxOf? (f n)).getD (met.map f).size = (met.idxOf? n).getD met.size := by
    rw [hr.idxOf?_map hmet hn, Array.size_map]
  have hnumbers {ns : List NodeId} (hns : ∀ n : Nat, n ∈ ns → n < h₁.size) :
      (ns.map f).map (fun n => ((met.map f).idxOf? n).getD (met.map f).size) =
        ns.map fun n => (met.idxOf? n).getD met.size := by
    rw [List.map_map]
    exact List.map_congr_left fun n hn => hnumber (hns n hn)
  rw [hnumbers hroots, Array.toList_map, List.filterMap_map]
  refine congrArg _ (List.filterMap_congr fun n hn => ?_)
  have hn := hmet n (Array.mem_toList_iff.mp hn)
  obtain ⟨node, hnode⟩ := exists_node hn
  rw [Function.comp_apply, hr.nodes n hn, hnode]
  cases node with
  | leaf l => rfl
  | operation op ns => simp [Node.map, ← hnumbers fun m hm => hw.operand_lt_size hnode hm]

end Fluxion.Graph
