import RapxDataflow.Mir

namespace RapxDataflow

inductive AggKind
  | array
  | tuple
  | adt (defId : DefId)
  | closure (defId : DefId)
  deriving DecidableEq, Repr

inductive NodeOp
  | nop
  | err
  | const (text : String)
  | use
  | «repeat»
  | ref
  | threadLocalRef
  | addressOf
  | len
  | cast
  | binaryOp
  | checkedBinaryOp
  | nullaryOp
  | unaryOp
  | discriminant
  | aggregate (kind : AggKind)
  | shallowInitBox
  | copyForDeref
  | call (defId : DefId)
  | callOperand
  deriving DecidableEq, Repr

def NodeOp.isConst : NodeOp → Bool
  | const _ => true
  | _ => false

inductive EdgeOp
  | nop
  | move
  | copy
  | const
  | immut
  | mut
  | deref
  | field (name : String)
  | downcast (name : String)
  | index
  | constIndex
  | subSlice
  deriving DecidableEq, Repr

abbrev EdgeIdx := Nat

-- `seq` is the destination's `seq` when the edge was added; both are the source's `u32`,
-- which `+= 1` wraps in a release build.
structure GraphEdge where
  src : Local
  dst : Local
  op : EdgeOp
  seq : UInt32
  deriving DecidableEq, Repr

structure GraphNode where
  op : NodeOp
  span : Span
  seq : UInt32
  outEdges : List EdgeIdx
  inEdges : List EdgeIdx
  deriving DecidableEq, Repr

def GraphNode.new : GraphNode :=
  { op := .nop, span := dummySp, seq := 0, outEdges := [], inEdges := [] }

-- `in_edges.push(edge_idx)` and `out_edges.push(edge_idx)`.
def GraphNode.pushInEdge (n : GraphNode) (e : EdgeIdx) : GraphNode :=
  { n with inEdges := n.inEdges ++ [e] }

def GraphNode.pushOutEdge (n : GraphNode) (e : EdgeIdx) : GraphNode :=
  { n with outEdges := n.outEdges ++ [e] }

structure Graph where
  defId : DefId
  span : Span
  argc : Nat
  nodes : List GraphNode
  edges : List GraphEdge
  nLocals : Nat
  deriving DecidableEq, Repr

namespace Graph

def new (defId : DefId) (span : Span) (argc nLocals : Nat) : Graph :=
  { defId, span, argc, nodes := List.replicate nLocals GraphNode.new, edges := [], nLocals }

-- `self.nodes[i]` and `self.edges[i]`, which panic past the end.
def node (g : Graph) (i : Local) : Except Fault GraphNode :=
  match g.nodes[i]? with
  | some n => pure n
  | none => throw .indexOutOfBounds

def edge (g : Graph) (i : EdgeIdx) : Except Fault GraphEdge :=
  match g.edges[i]? with
  | some e => pure e
  | none => throw .indexOutOfBounds

-- A write through `self.nodes[i]`.
def modifyNode (g : Graph) (i : Local) (f : GraphNode → GraphNode) : Except Fault Graph :=
  if i < g.nodes.length then pure { g with nodes := g.nodes.modify f i }
  else throw .indexOutOfBounds

-- `IndexVec::push`, which returns the index of the new element.
def pushNode (g : Graph) (n : GraphNode) : Graph × Local :=
  ({ g with nodes := g.nodes ++ [n] }, g.nodes.length)

def pushEdge (g : Graph) (e : GraphEdge) : Graph × EdgeIdx :=
  ({ g with edges := g.edges ++ [e] }, g.edges.length)

def setOp (g : Graph) (dst : Local) (op : NodeOp) : Except Fault Graph :=
  g.modifyNode dst fun n => { n with op }

end Graph

-- The ids, in creation order, of the edges that satisfy `p`.
def idsWhere (edges : List GraphEdge) (p : GraphEdge → Bool) : List EdgeIdx :=
  (List.range edges.length).filter fun e => edges[e]?.any p

section Lemmas

variable {ε α β : Type} {g g' : Graph} {i : Nat} {f : GraphNode → GraphNode}

theorem bind_eq_ok {x : Except ε α} {k : α → Except ε β} {b : β} :
    x >>= k = .ok b ↔ ∃ a, x = .ok a ∧ k a = .ok b := by
  cases x <;> simp [bind, Except.bind]

@[simp] theorem ok_bind {a : α} {k : α → Except ε β} : (Except.ok a : Except ε α) >>= k = k a := rfl

@[simp] theorem error_bind {e : ε} {k : α → Except ε β} : (Except.error e : Except ε α) >>= k = .error e :=
  rfl

@[simp] theorem pure_eq_ok {a b : α} : (pure a : Except ε α) = .ok b ↔ a = b := by
  simp [pure, Except.pure]

@[simp] theorem fst_map_eq_ok {x : Except ε (α × β)} {a : α} :
    Prod.fst <$> x = .ok a ↔ ∃ b, x = .ok (a, b) := by
  cases x with
  | error => simp [Functor.map, Except.map]
  | ok p => obtain ⟨a', b⟩ := p; simp [Functor.map, Except.map, eq_comm]

@[simp] theorem map_ok {k : α → β} {a : α} : k <$> (Except.ok a : Except ε α) = .ok (k a) := rfl

theorem exists_bind_ok {x : Except ε α} {k : α → Except ε β} {a : α} (hx : x = .ok a)
    (hk : ∃ b, k a = .ok b) : ∃ b, x >>= k = .ok b := by
  rw [hx]
  exact hk

@[simp] theorem map_throw {k : α → β} {e : ε} : k <$> (throw e : Except ε α) = throw e := rfl

@[simp] theorem throw_ne_ok {e : ε} {b : α} : (throw e : Except ε α) ≠ .ok b := by
  simp [throw, throwThe, MonadExceptOf.throw, Except.ok.injEq]

namespace GraphNode

variable (n : GraphNode) (e : EdgeIdx)

@[simp] theorem pushInEdge_op : (n.pushInEdge e).op = n.op := rfl
@[simp] theorem pushInEdge_seq : (n.pushInEdge e).seq = n.seq := rfl
@[simp] theorem pushInEdge_inEdges : (n.pushInEdge e).inEdges = n.inEdges ++ [e] := rfl
@[simp] theorem pushInEdge_outEdges : (n.pushInEdge e).outEdges = n.outEdges := rfl
@[simp] theorem pushOutEdge_op : (n.pushOutEdge e).op = n.op := rfl
@[simp] theorem pushOutEdge_seq : (n.pushOutEdge e).seq = n.seq := rfl
@[simp] theorem pushOutEdge_inEdges : (n.pushOutEdge e).inEdges = n.inEdges := rfl
@[simp] theorem pushOutEdge_outEdges : (n.pushOutEdge e).outEdges = n.outEdges ++ [e] := rfl

end GraphNode

namespace Graph

@[simp] theorem node_eq_ok {n : GraphNode} : g.node i = .ok n ↔ g.nodes[i]? = some n := by
  unfold node; split <;> rename_i h <;> simp [h]

@[simp] theorem edge_eq_ok {e : GraphEdge} : g.edge i = .ok e ↔ g.edges[i]? = some e := by
  unfold edge; split <;> rename_i h <;> simp [h]

@[simp] theorem modifyNode_eq_ok :
    g.modifyNode i f = .ok g' ↔ i < g.nodes.length ∧ g' = { g with nodes := g.nodes.modify f i } := by
  unfold modifyNode; split <;> simp_all [pure, Except.pure, eq_comm]

@[simp] theorem setOp_eq_ok {op : NodeOp} :
    g.setOp i op = .ok g' ↔
      i < g.nodes.length ∧ g' = { g with nodes := g.nodes.modify (fun n => { n with op }) i } :=
  modifyNode_eq_ok

@[simp] theorem pushNode_fst {n : GraphNode} : (g.pushNode n).1 = { g with nodes := g.nodes ++ [n] } :=
  rfl

@[simp] theorem pushNode_snd {n : GraphNode} : (g.pushNode n).2 = g.nodes.length := rfl

@[simp] theorem pushEdge_fst {e : GraphEdge} : (g.pushEdge e).1 = { g with edges := g.edges ++ [e] } :=
  rfl

@[simp] theorem pushEdge_snd {e : GraphEdge} : (g.pushEdge e).2 = g.edges.length := rfl

theorem node_of_getElem? {n : GraphNode} (h : g.nodes[i]? = some n) : g.node i = .ok n :=
  node_eq_ok.mpr h

theorem edge_of_getElem? {e : GraphEdge} (h : g.edges[i]? = some e) : g.edge i = .ok e :=
  edge_eq_ok.mpr h

theorem node_of_lt (h : i < g.nodes.length) : g.node i = .ok g.nodes[i] := by
  simp [List.getElem?_eq_getElem h]

theorem modifyNode_of_lt (h : i < g.nodes.length) :
    g.modifyNode i f = .ok { g with nodes := g.nodes.modify f i } := by
  simp [modifyNode, h]

end Graph

-- A lookup in a list after a push: an old element, or the pushed one at the old length.
theorem getElem?_push_eq_some {l : List α} {x m : α} {v : Nat} :
    (l ++ [x])[v]? = some m ↔ l[v]? = some m ∨ (v = l.length ∧ x = m) := by
  rcases Nat.lt_or_ge v l.length with hv | hv
  · simp [List.getElem?_append_left hv, hv.ne]
  · have hl : l[v]? = none := List.getElem?_eq_none hv
    rw [List.getElem?_append_right hv, hl]
    rcases Nat.eq_or_lt_of_le hv with rfl | hv' <;> simp [List.getElem?_cons, *]
    omega

theorem idsWhere_append (edges : List GraphEdge) (x : GraphEdge) (p : GraphEdge → Bool) :
    idsWhere (edges ++ [x]) p = idsWhere edges p ++ if p x then [edges.length] else [] := by
  unfold idsWhere
  rw [List.length_append, List.length_singleton, List.range_succ, List.filter_append]
  congr 1
  · apply List.filter_congr
    intro e he
    rw [List.getElem?_append_left (List.mem_range.mp he)]
  · by_cases hx : p x <;> simp [hx]

@[simp] theorem idsWhere_nil (p : GraphEdge → Bool) : idsWhere [] p = [] := rfl

theorem mem_idsWhere {edges : List GraphEdge} {p : GraphEdge → Bool} {e : EdgeIdx} :
    e ∈ idsWhere edges p ↔ ∃ edge, edges[e]? = some edge ∧ p edge := by
  unfold idsWhere
  simp only [List.mem_filter, List.mem_range]
  constructor
  · rintro ⟨he, hp⟩
    exact ⟨_, List.getElem?_eq_getElem he, by simpa [List.getElem?_eq_getElem he] using hp⟩
  · rintro ⟨edge, he, hp⟩
    exact ⟨(List.getElem?_eq_some_iff.mp he).1, by simp [he, hp]⟩

end Lemmas

end RapxDataflow
