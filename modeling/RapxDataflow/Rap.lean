import RapxDataflow.Graph

namespace RapxDataflow.Rap

-- The first dataflow builder, `rap/src/analysis/core/dataflow.rs`: no constant nodes, no
-- projections, no spans or `seq`. `to_dot_graph` and the DOT text `build_graph` makes are left out.

inductive NodeOp
  | nop
  | err
  | use
  | «repeat»
  | ref
  | threadLocalRef
  | addressOf
  | len
  | cast
  | binaryOp
  | checkedBinaryOp
  | nullaryOp
  | unaryOp
  | discriminant
  | aggregate
  | shallowInitBox
  | copyForDeref
  | call (defId : DefId)
  deriving DecidableEq, Repr

inductive EdgeOp
  | move
  | copy
  | const
  deriving DecidableEq, Repr

-- A constant edge keeps the constant's text as its source; there is no node for it.
inductive GraphEdge
  | nodeEdge (src dst : Local) (op : EdgeOp)
  | constEdge (src : String) (dst : Local) (op : EdgeOp)
  deriving DecidableEq, Repr

structure GraphNode where
  op : NodeOp
  outEdges : List EdgeIdx
  inEdges : List EdgeIdx
  deriving DecidableEq, Repr

def GraphNode.new : GraphNode :=
  { op := .nop, outEdges := [], inEdges := [] }

structure Graph where
  defId : DefId
  argc : Nat
  nodes : List GraphNode
  edges : List GraphEdge
  deriving DecidableEq, Repr

namespace Graph

def new (defId : DefId) (argc n : Nat) : Graph :=
  { defId, argc, nodes := List.replicate n GraphNode.new, edges := [] }

-- A write through `self.nodes[i]`, which panics past the end.
def modifyNode (g : Graph) (i : Local) (f : GraphNode → GraphNode) : Except Fault Graph :=
  if i < g.nodes.length then pure { g with nodes := g.nodes.modify f i }
  else throw .indexOutOfBounds

def setOp (g : Graph) (dst : Local) (op : NodeOp) : Except Fault Graph :=
  g.modifyNode dst fun n => { n with op }

def addNodeEdge (g : Graph) (src dst : Local) (op : EdgeOp) : Except Fault (Graph × EdgeIdx) := do
  let edgeIdx := g.edges.length
  let g := { g with edges := g.edges ++ [GraphEdge.nodeEdge src dst op] }
  let g ← g.modifyNode dst fun n => { n with inEdges := n.inEdges ++ [edgeIdx] }
  let g ← g.modifyNode src fun n => { n with outEdges := n.outEdges ++ [edgeIdx] }
  pure (g, edgeIdx)

def addConstEdge (g : Graph) (src : String) (dst : Local) (op : EdgeOp) :
    Except Fault (Graph × EdgeIdx) := do
  let edgeIdx := g.edges.length
  let g := { g with edges := g.edges ++ [GraphEdge.constEdge src dst op] }
  let g ← g.modifyNode dst fun n => { n with inEdges := n.inEdges ++ [edgeIdx] }
  pure (g, edgeIdx)

-- `add_operand` reads only `place.local` of a copied or moved place.
def addOperand (g : Graph) (operand : Operand) (dst : Local) : Except Fault Graph :=
  match operand with
  | .copy place => Prod.fst <$> g.addNodeEdge place.local dst .copy
  | .move place => Prod.fst <$> g.addNodeEdge place.local dst .move
  | .constant const => Prod.fst <$> g.addConstEdge const.text dst .const

def addOperands (g : Graph) (dst : Local) : List Operand → Except Fault Graph
  | [] => pure g
  | operand :: rest => do
    let g ← g.addOperand operand dst
    g.addOperands dst rest

-- `Rvalue::CheckedBinaryOp` of the older compiler is a `BinaryOp` whose operator is a
-- `WithOverflow` one; any other right-hand side is `panic!("Unimplemented Rvalue!")`.
def addStatmToGraph (g : Graph) : StatementKind → Except Fault Graph
  | .assign place rvalue =>
    let dst := place.local
    match rvalue with
    | .use op => do (← g.addOperand op dst).setOp dst .use
    | .binaryOp binOp lhs rhs =>
      if binOp.isWithOverflow then do
        let g ← g.addOperand lhs dst
        (← g.addOperand rhs dst).setOp dst .checkedBinaryOp
      else throw .panic
    | .aggregate _ ops => do (← g.addOperands dst ops).setOp dst .aggregate
    | _ => throw .panic
  | .other => pure g

-- A call whose callee is not a `Const::Val` of `FnDef` type reaches
-- `panic!("An error happened in add_terminator_to_graph.")`.
def addTerminatorToGraph (g : Graph) : TerminatorKind → Except Fault Graph
  | .call (.constant (.val ty _)) args destination =>
    match ty.kind with
    | .fnDef defId => do
      let dst := destination.local
      (← g.addOperands dst args).setOp dst (.call defId)
    | .other => throw .panic
  | .call _ _ _ => throw .panic
  | .other => pure g

def addInstr (g : Graph) : Instr → Except Fault Graph
  | .statement statement => g.addStatmToGraph statement.kind
  | .terminator terminator => g.addTerminatorToGraph terminator.kind

-- The loop of `build_graph`.
def translate (g : Graph) : List Instr → Except Fault Graph
  | [] => pure g
  | instr :: rest => do
    let g ← g.addInstr instr
    g.translate rest

section Spec

variable {g : Graph} {src dst : Local} {op : EdgeOp}

theorem modifyNode_of_lt {i : Local} {f : GraphNode → GraphNode} (h : i < g.nodes.length) :
    g.modifyNode i f = .ok { g with nodes := g.nodes.modify f i } := by
  simp [modifyNode, h, pure, Except.pure]

theorem addNodeEdge_of_lt (hsrc : src < g.nodes.length) (hdst : dst < g.nodes.length) :
    g.addNodeEdge src dst op = .ok ({ g with
      edges := g.edges ++ [.nodeEdge src dst op]
      nodes := (g.nodes.modify (fun n => { n with inEdges := n.inEdges ++ [g.edges.length] }) dst).modify
        (fun n => { n with outEdges := n.outEdges ++ [g.edges.length] }) src }, g.edges.length) := by
  simp [addNodeEdge, modifyNode_of_lt, hsrc, hdst]

theorem addConstEdge_of_lt {text : String} (hdst : dst < g.nodes.length) :
    g.addConstEdge text dst op = .ok ({ g with
      edges := g.edges ++ [.constEdge text dst op]
      nodes := g.nodes.modify (fun n => { n with inEdges := n.inEdges ++ [g.edges.length] }) dst },
      g.edges.length) := by
  simp [addConstEdge, modifyNode_of_lt, hdst]

end Spec

end Graph

end RapxDataflow.Rap
