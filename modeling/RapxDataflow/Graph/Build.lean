import RapxDataflow.Graph

namespace RapxDataflow.Graph

-- The builder of `rapx/src/analysis/core/dataflow/graph.rs`, one definition per method.
-- `println!` before a `todo!()` writes nothing the graph keeps and is left out.

def addNodeEdge (g : Graph) (src dst : Local) (op : EdgeOp) : Except Fault (Graph × EdgeIdx) := do
  let seq := (← g.node dst).seq
  let (g, edgeIdx) := g.pushEdge { src, dst, op, seq }
  let g ← g.modifyNode dst (·.pushInEdge edgeIdx)
  let g ← g.modifyNode src (·.pushOutEdge edgeIdx)
  pure (g, edgeIdx)

-- Unlike `add_node_edge`, this leaves the new constant node's `out_edges` empty.
def addConstEdge (g : Graph) (src : String) (dst : Local) (op : EdgeOp) :
    Except Fault (Graph × EdgeIdx) := do
  let seq := (← g.node dst).seq
  let (g, src) := g.pushNode { GraphNode.new with op := .const src }
  let (g, edgeIdx) := g.pushEdge { src, dst, op, seq }
  let g ← g.modifyNode dst (·.pushInEdge edgeIdx)
  pure (g, edgeIdx)

-- `parse_one_step`: a fresh node for one projection, reached from `src`. An `Index` step
-- also draws an edge from the index local, with the same tag.
def parseOneStep (g : Graph) (src : Local) (placeElem : PlaceElem) : Except Fault (Graph × Local) := do
  let (g, dst) := g.pushNode GraphNode.new
  let g ← match placeElem with
    | .deref => Prod.fst <$> g.addNodeEdge src dst .deref
    | .field fieldIdx => Prod.fst <$> g.addNodeEdge src dst (.field (toString fieldIdx))
    | .downcast symbol => do
      let name ← match symbol with
        | some name => pure name
        | none => throw .unwrapNone
      Prod.fst <$> g.addNodeEdge src dst (.downcast name)
    | .index idx => do
      let (g, _) ← g.addNodeEdge src dst .index
      Prod.fst <$> g.addNodeEdge idx dst .index
    | .constantIndex => Prod.fst <$> g.addNodeEdge src dst .constIndex
    | .subslice => Prod.fst <$> g.addNodeEdge src dst .subSlice
    | .opaqueCast | .subtype => throw .todo
  pure (g, dst)

-- The loop of `parse_place`, with `ret` the node reached so far.
def parseSteps (g : Graph) (ret : Local) : List PlaceElem → Except Fault (Graph × Local)
  | [] => pure (g, ret)
  | placeElem :: rest => do
    let (g, ret) ← g.parseOneStep ret placeElem
    g.parseSteps ret rest

def parsePlace (g : Graph) (place : Place) : Except Fault (Graph × Local) :=
  g.parseSteps place.local place.projection

def addOperand (g : Graph) (operand : Operand) (dst : Local) : Except Fault Graph :=
  match operand with
  | .copy place => do
    let (g, src) ← g.parsePlace place
    Prod.fst <$> g.addNodeEdge src dst .copy
  | .move place => do
    let (g, src) ← g.parsePlace place
    Prod.fst <$> g.addNodeEdge src dst .move
  | .constant const => Prod.fst <$> g.addConstEdge const.text dst .const

-- `for operand in operands { self.add_operand(operand, dst) }`
def addOperands (g : Graph) (dst : Local) : List Operand → Except Fault Graph
  | [] => pure g
  | operand :: rest => do
    let g ← g.addOperand operand dst
    g.addOperands dst rest

-- `let src = self.parse_place(place); self.add_node_edge(src, dst, op);`
def addPlaceEdge (g : Graph) (place : Place) (dst : Local) (op : EdgeOp) : Except Fault Graph := do
  let (g, src) ← g.parsePlace place
  Prod.fst <$> g.addNodeEdge src dst op

def borrowEdgeOp : BorrowKind → EdgeOp
  | .shared => .immut
  | .mut => .mut
  | .fake => .nop

def aggKind : AggregateKind → Option AggKind
  | .array => some .array
  | .tuple => some .tuple
  | .adt defId => some (.adt defId)
  | .closure defId => some (.closure defId)
  | _ => none

-- The `match rvalue` of `add_statm_to_graph`: the edges into `dst` and its new op.
def addRvalue (g : Graph) (rvalue : Rvalue) (dst : Local) : Except Fault Graph :=
  match rvalue with
  | .use operand => do (← g.addOperand operand dst).setOp dst .use
  | .repeat operand => do (← g.addOperand operand dst).setOp dst .repeat
  | .ref borrowKind place => do (← g.addPlaceEdge place dst (borrowEdgeOp borrowKind)).setOp dst .ref
  | .len place => do (← g.addPlaceEdge place dst .nop).setOp dst .len
  | .cast operand => do (← g.addOperand operand dst).setOp dst .cast
  | .binaryOp _ lhs rhs => do
    let g ← g.addOperand lhs dst
    (← g.addOperand rhs dst).setOp dst .checkedBinaryOp
  | .aggregate kind operands => do
    let g ← g.addOperands dst operands
    match aggKind kind with
    | some kind => g.setOp dst (.aggregate kind)
    | none => throw .todo
  | .unaryOp operand => do (← g.addOperand operand dst).setOp dst .unaryOp
  | .nullaryOp ty => do (← Prod.fst <$> g.addConstEdge ty.text dst .nop).setOp dst .nullaryOp
  | .threadLocalRef _ => throw .todo
  | .discriminant place => do (← g.addPlaceEdge place dst .nop).setOp dst .discriminant
  | .shallowInitBox operand => do (← g.addOperand operand dst).setOp dst .shallowInitBox
  | .copyForDeref place => do (← g.addPlaceEdge place dst .nop).setOp dst .copyForDeref
  | .rawPtr _ => throw .todo

def addStatmToGraph (g : Graph) (statement : Statement) : Except Fault Graph :=
  match statement.kind with
  | .assign place rvalue => do
    let (g, dst) ← g.parsePlace place
    let g ← g.modifyNode dst fun n => { n with span := statement.span }
    let g ← g.addRvalue rvalue dst
    g.modifyNode dst fun n => { n with seq := n.seq + 1 }
  | .other => pure g

-- The `match func` of `add_terminator_to_graph`. A constant callee that is not a
-- `Const::Val` of `FnDef` type adds nothing.
def addCall (g : Graph) (func : Operand) (args : List Operand) (dst : Local) : Except Fault Graph :=
  match func with
  | .constant (.val ty _) =>
    match ty.kind with
    | .fnDef defId => do (← g.addOperands dst args).setOp dst (.call defId)
    | .other => pure g
  | .constant _ => pure g
  | .move _ => do
    let g ← g.addOperand func dst
    (← g.addOperands dst args).setOp dst .callOperand
  | .copy _ => throw .todo

def addTerminatorToGraph (g : Graph) (terminator : Terminator) : Except Fault Graph :=
  match terminator.kind with
  | .call func args destination => do
    let dst := destination.local
    let g ← g.addCall func args dst
    let g ← g.modifyNode dst fun n => { n with span := terminator.span }
    g.modifyNode dst fun n => { n with seq := n.seq + 1 }
  | .other => pure g

def addInstr (g : Graph) : Instr → Except Fault Graph
  | .statement statement => g.addStatmToGraph statement
  | .terminator terminator => g.addTerminatorToGraph terminator

-- A run of the builder over a sequence of statements and terminators.
def translate (g : Graph) : List Instr → Except Fault Graph
  | [] => pure g
  | instr :: rest => do
    let g ← g.addInstr instr
    g.translate rest

end RapxDataflow.Graph
