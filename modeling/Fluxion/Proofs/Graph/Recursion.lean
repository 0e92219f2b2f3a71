import Fluxion.Proofs.Graph.Numbering
import Fluxion.Proofs.Graph.Requests

namespace Fluxion.Graph

variable {g : Graph} {n : Nat} {name : String} {requests : List (NodeId × String)}

/-- A derivative worked out from its node down: nothing is done if it is known, or else each operand
is worked out in turn, and then the node is filled. Operands are older than the node, so this comes
to an end. -/
def workOut (name : String) (g : Graph) (n : NodeId) : Graph :=
  if (g.derivative? name n).isSome then g
  else
    ((g.operands n).foldl (fun h m => if m < n then h.workOut name m else h) g).fill name n
termination_by n

theorem workOut_of_known (hd : (g.derivative? name n).isSome) : g.workOut name n = g := by
  rw [workOut, if_pos hd]

theorem workOut_of_unknown (hg : g.WellFormed) (hd : g.derivative? name n = none) :
    g.workOut name n = ((g.operands n).foldl (workOut name) g).fill name n := by
  rw [workOut, if_neg (by simp [hd])]
  have holder : ∀ m ∈ g.operands n, m < n := fun m hm => hg.uses_lt hm
  exact congrArg (fill name · n) (List.foldl_ext _ _ g fun h m hm => if_pos (holder m hm))

/-- Nothing that the operands of a node need is a derivative of the node. -/
theorem Serves.unknown {h : Graph} {ms : List NodeId} (hr : Serves g (ms.map fun m => (m, name)) h)
    (hg : g.WellFormed) (hn : n < g.size) (hms : ∀ m : Nat, m ∈ ms → m < n)
    (hnone : g.answer? (.derivative n name) = none) : h.answer? (.derivative n name) = none := by
  obtain ⟨ks, hks, hneeds⟩ := hr.performs
  rw [← Option.not_isSome_iff_eq_none, hks.isSome_iff (l := .derivative n name) hn, hnone]
  rintro (hsome | hk)
  · cases hsome
  · obtain ⟨q, hq, m, hb, hk⟩ := hneeds _ hk
    obtain ⟨operand, hmem, rfl⟩ := List.mem_map.mp hq
    obtain rfl : n = m := hk.owner
    exact Nat.lt_irrefl n (Nat.lt_of_le_of_lt (hg.below_le hb) (hms operand hmem))

/-- To fill a node whose operands were worked out is to work it out. -/
theorem Serves.fill {op : Operator} {ns : List NodeId} {h : Graph}
    (hr : Serves g (ns.map fun m => (m, name)) h) (hg : g.WellFormed)
    (hn : g.nodes[n]? = some (.operation op ns)) (hnone : g.derivative? name n = none) :
    Serves g [(n, name)] (h.fill name n) := by
  have hkeeps := (hr.retains hg).keeps
  have hknown : ∀ m ∈ ns, (h.derivative? name m).isSome := fun m hm =>
    hr.known (m, name) (List.mem_map_of_mem hm)
  have hunknown := hr.unknown hg (lt_size hn) (fun m hm => hg.operand_lt hn hm)
    ((answer?_derivative_eq_none hn).mpr hnone)
  have hfilled := fill_filled hr.truthful (hkeeps hn) hknown
  obtain ⟨ks, hks, hbefore⟩ := hr.performs
  obtain ⟨ls, hls, hlast⟩ := fill_needs hr.truthful (hkeeps hn) hknown
    ((answer?_derivative_eq_none (hkeeps hn)).mp hunknown)
  refine ⟨by simpa using lt_size hn, hfilled.truthful,
    ⟨ks ++ ls, hks.append hls, fun k hk => ?_⟩, by simp [hfilled.known (hkeeps hn)]⟩
  refine ⟨(n, name), List.mem_singleton_self _, ?_⟩
  rcases List.mem_append.mp hk with hk | hk
  · obtain ⟨q, hq, m, hb, hk⟩ := hbefore k hk
    obtain ⟨operand, hmem, rfl⟩ := List.mem_map.mp hq
    exact ⟨m, .head (mem_operands.mpr ⟨op, ns, hn, hmem⟩) hb, hk⟩
  · exact ⟨n, .refl, (hkeeps.needs (lt_size hn)).mp (hlast k hk)⟩

theorem workOut_serves (hg : g.Truthful) (hn : n < g.size) (name : String) :
    Serves g [(n, name)] (g.workOut name n) := by
  induction n using Nat.strongRecOn generalizing g with
  | ind n ih =>
    by_cases hd : (g.derivative? name n).isSome
    · rw [workOut_of_known hd]
      exact ⟨by simpa using hn, hg, ⟨[], .nil, by simp⟩, by simpa using hd⟩
    · have hnone := Option.not_isSome_iff_eq_none.mp hd
      rw [workOut_of_unknown hg.toWellFormed hnone]
      obtain ⟨node, hnode⟩ := exists_node hn
      cases node with
      | leaf l =>
        rw [derivative?_leaf hnode] at hnone
        cases hnone
      | operation op ns =>
        rw [operands_eq hnode]
        have hoperands : Serves g (ns.map fun m => (m, name)) (ns.foldl (workOut name) g) := by
          rw [← List.foldl_map (f := fun m => (m, name)) (g := fun h q => workOut q.2 h q.1)]
          apply serves_foldl _ _ _ hg
          · intro q hq
            obtain ⟨m, hm, rfl⟩ := List.mem_map.mp hq
            exact hg.operand_lt_size hnode hm
          · intro h hh q hq hlt
            obtain ⟨m, hm, rfl⟩ := List.mem_map.mp hq
            exact ih m (hg.operand_lt hnode hm) hh hlt
        exact hoperands.fill hg.toWellFormed hnode hnone

theorem foldl_workOut_serves (hg : g.Truthful) (hlt : ∀ q ∈ requests, q.1 < g.size) :
    Serves g requests (requests.foldl (fun h q => h.workOut q.2 q.1) g) :=
  serves_foldl _ requests (fun hh q _ hq => workOut_serves hh hq q.2) hg hlt

/-- The recursion leaves the graph that is left by going through what is pending, but for where the
new nodes are. It gives the same answer, and takes as many nodes. -/
theorem workOut_renaming (hg : g.Truthful) (hs : g.Settled) (hn : n < g.size) (name : String) :
    let (h, d) := g.derivative name n
    ∃ f, g.Renaming h (g.workOut name n) f ∧
      (g.workOut name n).derivative? name n = some (f d) ∧
      (g.workOut name n).size = h.size := by
  have hw := hg.toWellFormed
  have hqs := derivative_serves hg hn name
  have hrs := workOut_serves hg hn name
  obtain ⟨f, hf⟩ := hqs.exists_renaming hrs hg hs fun _ => Iff.rfl
  refine ⟨f, hf, ?_, hf.size_eq⟩
  rw [derivative?_eq_some (hrs.known (n, name) (List.mem_singleton_self _)),
    hf.derivativeOf hw (hqs.retains hw).keeps (hrs.retains hw).keeps hn]
  rfl

end Fluxion.Graph
