import Fluxion.Proofs.Graph.Differentiation

namespace Fluxion.Graph

mutual
/-- The nodes that a term over nodes is built into if the next one is
`first`, and the term's own node. -/
def laid (first : Nat) : Term NodeId → List Node × NodeId
  | .leaf n => ([], n)
  | .operation op ts =>
    let (nodes, ns) := laidAll first ts
    (nodes ++ [.operation op ns], first + nodes.length)

def laidAll (first : Nat) : List (Term NodeId) → List Node × List NodeId
  | [] => ([], [])
  | t :: ts =>
    let (nodes, n) := laid first t
    let (more, ns) := laidAll (first + nodes.length) ts
    (nodes ++ more, n :: ns)
end

/-- New nodes with nothing to remember. -/
def append (g : Graph) (nodes : List Node) : Graph :=
  ⟨g.nodes ++ nodes.toArray, g.memos ++ Array.replicate nodes.length .empty⟩

variable {g h : Graph} {n m first : Nat} {name : String} {op : Operator} {ns ps ds : List NodeId}

@[simp] theorem append_nil (g : Graph) : g.append [] = g := by simp [append]

theorem append_append (g : Graph) (nodes more : List Node) :
    (g.append nodes).append more = g.append (nodes ++ more) := by
  simp [append, Array.append_assoc, Array.replicate_append_replicate]

theorem add_eq (g : Graph) (node : Node) : g.add node = (g.append [node], g.size) := by
  simp [add, append]

@[simp] theorem size_append (g : Graph) (nodes : List Node) :
    (g.append nodes).size = g.size + nodes.length := by simp [append, size]

@[simp] theorem memo_append (g : Graph) (nodes : List Node) (n : NodeId) :
    (g.append nodes).memo n = g.memo n := by
  simp only [memo, append, Array.getD_eq_getD_getElem?, Array.getElem?_append,
    Array.getElem?_replicate]
  split
  · rfl
  · rename_i hn
    rw [Array.getElem?_eq_none (Nat.le_of_not_lt hn)]
    split <;> rfl

theorem nodes_append (g : Graph) (nodes : List Node) (n : Nat) :
    (g.append nodes).nodes[n]? = if n < g.size then g.nodes[n]? else nodes[n - g.size]? := by
  simp only [append, Array.getElem?_append, List.getElem?_toArray]
  rfl

theorem keeps_append (g : Graph) (nodes : List Node) : g.Keeps (g.append nodes) := by
  intro n node hn
  rw [nodes_append, if_pos (lt_size hn), hn]

private theorem extendAll_eq_of {ts : List (Term NodeId)}
    (hts : ∀ t ∈ ts, ∀ g : Graph,
      g.extend t = (g.append (laid g.size t).1, (laid g.size t).2)) (g : Graph) :
    g.extendAll ts = (g.append (laidAll g.size ts).1, (laidAll g.size ts).2) := by
  induction ts generalizing g with
  | nil => simp [extendAll, buildAll, laidAll]
  | cons t ts ih =>
    have hfirst := hts t List.mem_cons_self g
    have hrest := ih (fun u hu => hts u (List.mem_cons_of_mem _ hu))
    simp only [extend, extendAll] at hfirst hrest ⊢
    simp only [buildAll, hfirst, hrest, laidAll, append_append, size_append]

theorem extend_eq (g : Graph) (t : Term NodeId) :
    g.extend t = (g.append (laid g.size t).1, (laid g.size t).2) := by
  induction t using Term.induct generalizing g with
  | onLeaf n => simp [extend, build, laid]
  | onOperation op ts ih =>
    have hall := extendAll_eq_of ih g
    simp only [extend, extendAll] at hall ⊢
    simp only [build, hall, add_eq, append_append, size_append, laid]

theorem extendAll_eq (g : Graph) (ts : List (Term NodeId)) :
    g.extendAll ts = (g.append (laidAll g.size ts).1, (laidAll g.size ts).2) :=
  extendAll_eq_of (fun t _ g => extend_eq g t) g

@[simp] theorem size_rememberPartials (g : Graph) (n : NodeId) (ps : List NodeId) :
    (g.rememberPartials n ps).size = g.size := rfl

/-- To work out the partial derivatives of a node, or its derivative by a variable. -/
inductive Task
  | partials (n : NodeId)
  | derivative (n : NodeId) (name : String)
deriving DecidableEq

def Task.owner : Task → NodeId
  | partials n => n
  | derivative n _ => n

/-- What is remembered of a task. -/
def answer? (g : Graph) : Task → Option (List NodeId)
  | .partials n => (g.memo n).partials?
  | .derivative n name => ((g.memo n).derivatives.lookup name).map ([·])

/-- What a task adds: nodes, of which at most the first has something to remember, and its
answer. -/
structure Block where
  nodes : List Node
  memo : Memo
  answer : List NodeId

def partialsBlock (first : Nat) (p : Primitive) (ns : List NodeId) : Block :=
  let (nodes, ps) := laidAll first (p.partials Shared.id ns)
  ⟨nodes, .empty, ps⟩

def chainBlock (first : Nat) (ps ds : List NodeId) : Block :=
  let (nodes, d) := laid first (chainRule Shared.id ps ds)
  ⟨nodes, .empty, [d]⟩

/-- The sum comes first, then all that its derivative is made from, then the quotient. -/
def quotientBlock (first : Nat) (name : String) (inner : Primitive) (divisor : Term NodeId)
    (ns ds : List NodeId) : Block :=
  let (partials, ps) := laidAll (first + 1) (inner.partials Shared.id ns)
  let (products, d) := laid (first + 1 + partials.length) (chainRule Shared.id ps ds)
  let (quotient, q) :=
    laid (first + 1 + partials.length + products.length) (.divide (.leaf d) divisor)
  ⟨.operation (.any inner) ns :: (partials ++ products ++ quotient),
    ⟨some ps, [(name, d)]⟩, [q]⟩

/-- What a task adds to a graph if its first node is `first`. Of the graph it depends on nothing but
the node and what is remembered of the tasks it builds on. -/
def block (g : Graph) (first : Nat) : Task → Block
  | .partials n =>
    match g.nodes[n]? with
    | some (.operation op ns) => partialsBlock first op.primitive ns
    | _ => ⟨[], .empty, []⟩
  | .derivative n name =>
    match g.nodes[n]? with
    | some (.operation op ns) =>
      if ns = [] then ⟨[], .empty, [Shared.zero.id]⟩
      else
        match op.primitive.quotient? Shared.id ns with
        | none =>
          chainBlock first ((g.answer? (.partials n)).getD []) (ns.map (g.derivativeOf name))
        | some (inner, divisor) =>
          quotientBlock first name inner divisor ns (ns.map (g.derivativeOf name))
    | _ => ⟨[], .empty, []⟩

theorem answer?_append (g : Graph) (nodes : List Node) (k : Task) :
    (g.append nodes).answer? k = g.answer? k := by
  cases k <;> simp [answer?]

theorem answer?_rememberPartials (hn : n < g.memos.size) (ps : List NodeId) (k : Task) :
    (g.rememberPartials n ps).answer? k = if k = .partials n then some ps else g.answer? k := by
  cases k with
  | partials m =>
    simp only [answer?, rememberPartials, memo_modify hn, Task.partials.injEq, eq_comm (a := m)]
    split <;> rfl
  | derivative m name =>
    simp only [answer?, rememberPartials, memo_modify hn, reduceCtorEq, if_false]
    split <;> rfl

theorem answer?_remember (hn : n < g.memos.size) (name : String) (d : NodeId) (k : Task) :
    (g.remember n name d).answer? k = if k = .derivative n name then some [d] else g.answer? k := by
  cases k with
  | partials m =>
    simp only [answer?, remember, memo_modify hn, reduceCtorEq, if_false]
    split <;> rfl
  | derivative m other =>
    simp only [answer?, remember, memo_modify hn, Task.derivative.injEq]
    by_cases hm : n = m
    · subst m
      by_cases hname : other = name
      · simp [hname]
      · simp [hname, List.lookup_cons, beq_false_of_ne hname]
    · simp [hm, Ne.symm hm]

end Fluxion.Graph
