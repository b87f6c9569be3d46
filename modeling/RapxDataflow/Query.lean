import RapxDataflow.Graph

namespace RapxDataflow

inductive Direction
  | upside
  | downside
  | both
  deriving DecidableEq, Repr

inductive DFSStatus
  | continue
  | stop
  deriving DecidableEq, Repr

-- The tags `collect_equivalent_locals` passes over: `Nop` (a parameter or an orphan
-- node), `Use` and `Ref`.
def NodeOp.isNopUseRef : NodeOp → Bool
  | .nop | .use | .ref => true
  | _ => false

namespace Graph

variable {σ : Type}

-- The `traverse!` loop of `dfs` over one adjacency list. `field` is the endpoint it
-- follows and `visit` the recursive call; the result is `true` when the loop executed
-- `return DFSStatus::Stop`. A node operator that captures mutable state (`root`, `set`,
-- `find`) is a function threading that state, as `FnMut` closures are; both edge
-- validators of the source are plain functions.
def traverse (g : Graph) (edgeValidator : Graph → EdgeIdx → Except Fault DFSStatus)
    (traverseAll : Bool) (field : GraphEdge → Local)
    (visit : Local → σ → Except Fault (DFSStatus × σ)) :
    List EdgeIdx → σ → Except Fault (Bool × σ)
  | [], s => pure (false, s)
  | edgeIdx :: rest, s => do
    let edge ← g.edge edgeIdx
    match ← edgeValidator g edgeIdx with
    | .continue =>
      let (result, s) ← visit (field edge) s
      if result = .stop ∧ !traverseAll then pure (true, s)
      else g.traverse edgeValidator traverseAll field visit rest s
    | .stop => g.traverse edgeValidator traverseAll field visit rest s

-- The `match direction` of `dfs`: the in-edges lead to their sources, the out-edges to
-- their destinations, and `Both` runs the two loops in that order.
def traverseDirection (g : Graph) (edgeValidator : Graph → EdgeIdx → Except Fault DFSStatus)
    (traverseAll : Bool) (visit : Local → σ → Except Fault (DFSStatus × σ)) (node : GraphNode) :
    Direction → σ → Except Fault (Bool × σ)
  | .upside, s => g.traverse edgeValidator traverseAll (·.src) visit node.inEdges s
  | .downside, s => g.traverse edgeValidator traverseAll (·.dst) visit node.outEdges s
  | .both, s => do
    let (stopped, s) ← g.traverse edgeValidator traverseAll (·.src) visit node.inEdges s
    if stopped then pure (true, s)
    else g.traverse edgeValidator traverseAll (·.dst) visit node.outEdges s

-- `dfs` has no visited set and recurses without bound on a cycle; the model runs it
-- with `fuel` and ends in `Fault.outOfFuel` when the fuel is spent. The graph does not
-- change during the search, so `self.nodes[now]` is read once.
def dfs (g : Graph) (direction : Direction)
    (nodeOperator : Graph → Local → σ → Except Fault (DFSStatus × σ))
    (edgeValidator : Graph → EdgeIdx → Except Fault DFSStatus) (traverseAll : Bool) :
    Nat → Local → σ → Except Fault (DFSStatus × σ)
  | 0, _, _ => throw .outOfFuel
  | fuel + 1, now, s => do
    let (status, s) ← nodeOperator g now s
    match status with
    | .stop => pure (.stop, s)
    | .continue =>
      let node ← g.node now
      let (stopped, s) ← g.traverseDirection edgeValidator traverseAll
        (g.dfs direction nodeOperator edgeValidator traverseAll fuel) node direction s
      pure (if stopped then .stop else .continue, s)

def equivalentEdgeValidator (g : Graph) (idx : EdgeIdx) : Except Fault DFSStatus := do
  match (← g.edge idx).op with
  | .copy | .move | .mut | .immut => pure .continue
  | _ => pure .stop

def alwaysTrueEdgeValidator (_ : Graph) (_ : EdgeIdx) : Except Fault DFSStatus :=
  pure .continue

-- `find_root_operator`, whose captured state is `root`.
def findRootOperator (g : Graph) (idx root : Local) : Except Fault (DFSStatus × Local) := do
  let node ← g.node idx
  if NodeOp.isNopUseRef node.op then pure (.continue, idx) else pure (.stop, root)

-- `find_equivalent_operator`, whose captured state is `set`.
def findEquivalentOperator (g : Graph) (idx : Local) (set : Finset Local) :
    Except Fault (DFSStatus × Finset Local) := do
  let node ← g.node idx
  if idx ∈ set then pure (.stop, set)
  else if NodeOp.isNopUseRef node.op then pure (.continue, insert idx set)
  else pure (.stop, set)

def collectEquivalentLocals (g : Graph) (fuel : Nat) (start : Local) :
    Except Fault (Finset Local) := do
  let (_, root) ← g.dfs .upside findRootOperator equivalentEdgeValidator true fuel start start
  let (_, set) ← g.dfs .downside findEquivalentOperator equivalentEdgeValidator true fuel root ∅
  pure set

-- The `node_operator` of `is_connected`, whose captured state is the cell `find`.
def connectedOperator (target : Local) (_ : Graph) (idx : Local) (_ : Bool) :
    Except Fault (DFSStatus × Bool) :=
  let find := decide (idx = target)
  pure (if find then .stop else .continue, find)

def isConnected (g : Graph) (fuel : Nat) (idx1 idx2 : Local) : Except Fault Bool := do
  let (_, find) ← g.dfs .downside (connectedOperator idx2) alwaysTrueEdgeValidator false fuel idx1 false
  if !find then
    let (_, find) ← g.dfs .upside (connectedOperator idx2) alwaysTrueEdgeValidator false fuel idx1 find
    pure find
  else pure find

def paramReturnDeps (g : Graph) (fuel : Nat) : Except Fault (List Bool) :=
  (List.range (g.argc + 1)).mapM fun i => g.isConnected fuel i 0

def getUpsideIdx (g : Graph) (nodeIdx : Local) (order : Nat) : Except Fault (Option Local) := do
  match (← g.node nodeIdx).inEdges[order]? with
  | some edgeIdx => pure (some (← g.edge edgeIdx).src)
  | none => pure none

def getDownsideIdx (g : Graph) (nodeIdx : Local) (order : Nat) : Except Fault (Option Local) := do
  match (← g.node nodeIdx).outEdges[order]? with
  | some edgeIdx => pure (some (← g.edge edgeIdx).dst)
  | none => pure none

end Graph

end RapxDataflow
